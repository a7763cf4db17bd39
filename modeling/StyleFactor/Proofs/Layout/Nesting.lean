import Mathlib.Data.List.Infix
import StyleFactor.Draft.Print
import StyleFactor.Layout.Mode

/-!
Modes that are entered and left in any order. The two steps are written out change by change, so
that it shows what a refused one leaves behind; they amount to `push` and `pop` (`enter_eq`,
`leave_eq`). As long as nothing else is done, the settings are decided by the stack (`settled`), and
a step is one on the stack alone (`step_settled`). Main statement: the settings are always those of
the innermost mode, and steps that leave just the modes they enter are never refused and leave
everything as it was (`settings_follow_stack`).
-/
namespace StyleFactor

namespace Modes

/-! Steps, one change after the other. -/

inductive Step where
  | enter (m : Mode)
  | leave
  deriving DecidableEq

inductive Refusal where
  /-- There is no mode to leave. -/
  | noMode
  deriving DecidableEq

/-- Takes the innermost mode off the stack and does not touch the settings. -/
def take : EStateM Refusal Modes Mode := fun s =>
  match s.stack with
  | [] => .error .noMode s
  | m :: rest => .ok m { s with stack := rest }

def preset (m : Mode) : EStateM Refusal Modes Unit :=
  modify fun s => { s with settings := m.preset s.settings }

def enter (m : Mode) : EStateM Refusal Modes Unit := do
  modify fun s => { s with stack := m :: s.stack }
  preset m

/-- Answers the mode that is left. -/
def leave : EStateM Refusal Modes Mode := do
  -- a refusal comes from here, before anything has been changed
  let innermost ← take
  preset (current (← get).stack)
  return innermost

def Step.perform : Step → EStateM Refusal Modes Unit
  | .enter m => Modes.enter m
  | .leave => do let _ ← Modes.leave

/-- Steps each of which has to be done before the next is taken. -/
def run (cs : List Step) : EStateM Refusal Modes Unit := cs.forM Step.perform

/-- What a step leaves behind, whether it is done or refused. -/
def step (s : Modes) (c : Step) : Modes :=
  match c.perform s with
  | .ok _ t => t
  | .error _ t => t

def after (s : Modes) (cs : List Step) : Modes := cs.foldl step s

theorem enter_eq (m : Mode) (s : Modes) : enter m s = .ok () (s.push m) := rfl

theorem leave_eq (s : Modes) :
    leave s =
      match s.pop with
      | none => .error .noMode s
      | some (m, t) => .ok m t := by
  obtain ⟨stack, settings⟩ := s
  cases stack <;> rfl

theorem run_cons (c : Step) (cs : List Step) (s : Modes) :
    run (c :: cs) s =
      match c.perform s with
      | .ok _ t => run cs t
      | .error r t => .error r t := by
  cases done : c.perform s <;> simp [run, bind, EStateM.bind, done]

theorem after_of_run {cs : List Step} {s t : Modes} (done : run cs s = .ok () t) :
    s.after cs = t := by
  induction cs generalizing s with
  | nil =>
    cases done
    rfl
  | cons c cs ih =>
    rw [run_cons] at done
    rw [after, List.foldl_cons, step]
    cases first : c.perform s with
    | ok _ u =>
      rw [first] at done
      exact ih done
    | error r u =>
      rw [first] at done
      cases done

/-! Modes that nothing but steps has changed. -/

def settled (stack : List Mode) : Modes := ⟨stack, (current stack).layout.toSettings⟩

theorem preset_layout (m n : Mode) : m.preset n.layout.toSettings = m.layout.toSettings := by
  cases m <;> cases n <;> rfl

theorem enter_settled (m : Mode) (stack : List Mode) :
    enter m (settled stack) = .ok () (settled (m :: stack)) := by
  rw [enter_eq, push, settled, preset_layout]
  rfl

theorem leave_settled_nil : leave (settled []) = .error .noMode (settled []) := rfl

theorem leave_settled_cons (m : Mode) (stack : List Mode) :
    leave (settled (m :: stack)) = .ok m (settled stack) := by
  rw [leave_eq]
  simp only [pop, settled, preset_layout]

theorem perform_leave_settled (m : Mode) (stack : List Mode) :
    Step.leave.perform (settled (m :: stack)) = .ok () (settled stack) := by
  simp only [Step.perform, bind, EStateM.bind, leave_settled_cons]
  rfl

/-- What a step does to the modes entered and not left, innermost first. -/
def Step.onStack (stack : List Mode) : Step → List Mode
  | .enter m => m :: stack
  | .leave => stack.tail

theorem step_settled (stack : List Mode) (c : Step) :
    (settled stack).step c = settled (c.onStack stack) := by
  cases c with
  | enter m =>
    rw [step, Step.perform, enter_settled]
    rfl
  | leave =>
    cases stack with
    | nil => rfl
    | cons m rest =>
      rw [step, perform_leave_settled]
      rfl

theorem after_settled (stack : List Mode) (cs : List Step) :
    (settled stack).after cs = settled (cs.foldl Step.onStack stack) := by
  induction cs generalizing stack with
  | nil => rfl
  | cons c cs ih =>
    rw [after, List.foldl_cons, step_settled]
    exact ih (c.onStack stack)

/-! Steps in matching pairs. -/

def Step.isLeave : Step → Bool
  | .enter _ => false
  | .leave => true

def entered (cs : List Step) : Nat := cs.countP (!·.isLeave)

def left (cs : List Step) : Nat := cs.countP Step.isLeave

@[simp] theorem entered_enter (m : Mode) (cs : List Step) :
    entered (.enter m :: cs) = entered cs + 1 := List.countP_cons_of_pos rfl

@[simp] theorem entered_leave (cs : List Step) : entered (.leave :: cs) = entered cs :=
  List.countP_cons_of_neg Bool.false_ne_true

@[simp] theorem left_enter (m : Mode) (cs : List Step) : left (.enter m :: cs) = left cs :=
  List.countP_cons_of_neg Bool.false_ne_true

@[simp] theorem left_leave (cs : List Step) : left (.leave :: cs) = left cs + 1 :=
  List.countP_cons_of_pos rfl

/-- Steps that leave just the modes they enter: at no point have more modes been left than entered,
and in the end as many. -/
structure Matched (cs : List Step) : Prop where
  inside : ∀ before, before <+: cs → left before ≤ entered before
  closed : left cs = entered cs

instance (cs : List Step) : Decidable (Matched cs) :=
  decidable_of_iff ((∀ before ∈ cs.inits, left before ≤ entered before) ∧ left cs = entered cs)
    ⟨fun h => ⟨fun before start => h.1 before ((List.mem_inits _ _).2 start), h.2⟩,
      fun h => ⟨fun before member => h.inside before ((List.mem_inits _ _).1 member), h.closed⟩⟩

/-- Steps that at no point leave more modes than there are above some others do not get at those:
they are all done, and the modes below stand as they were. -/
theorem run_above (below own : List Mode) {cs : List Step}
    (inside : ∀ before, before <+: cs → left before ≤ own.length + entered before) :
    ∃ own', run cs (settled (own ++ below)) = .ok () (settled (own' ++ below)) ∧
      own'.length + left cs = own.length + entered cs := by
  induction cs generalizing own with
  | nil => exact ⟨own, rfl, rfl⟩
  | cons c cs ih =>
    have onward : ∀ before, before <+: cs →
        left (c :: before) ≤ own.length + entered (c :: before) :=
      fun before start => inside (c :: before) (List.cons_prefix_cons.2 ⟨rfl, start⟩)
    cases c with
    | enter m =>
      simp only [left_enter, entered_enter] at onward ⊢
      have still : ∀ before, before <+: cs → left before ≤ (m :: own).length + entered before := by
        intro before start
        have bound := onward before start
        rw [List.length_cons]
        omega
      obtain ⟨own', done, length⟩ := ih (m :: own) still
      refine ⟨own', ?_, ?_⟩
      · rw [run_cons, Step.perform, enter_settled]
        exact done
      · rw [List.length_cons] at length
        omega
    | leave =>
      simp only [left_leave, entered_leave] at onward ⊢
      cases own with
      | nil =>
        -- this step alone would leave a mode below
        exact absurd (onward [] List.nil_prefix) (by decide)
      | cons m own =>
        have still : ∀ before, before <+: cs → left before ≤ own.length + entered before := by
          intro before start
          have bound := onward before start
          rw [List.length_cons] at bound
          omega
        obtain ⟨own', done, length⟩ := ih own still
        refine ⟨own', ?_, ?_⟩
        · rw [run_cons, List.cons_append, perform_leave_settled]
          exact done
        · rw [List.length_cons]
          omega

theorem run_matched {cs : List Step} (matched : Matched cs) (stack : List Mode) :
    run cs (settled stack) = .ok () (settled stack) := by
  obtain ⟨own, done, length⟩ := run_above stack [] fun before start =>
    Nat.le_add_left_of_le (matched.inside before start)
  have none : own.length = 0 := by
    rw [List.length_nil, matched.closed] at length
    omega
  rwa [List.length_eq_zero_iff.1 none] at done

/-- After any steps at all, those that were refused passed over: the stack holds the modes entered
and not left, and the settings are those of the innermost one, or else the canonical ones. With no
mode to leave, leaving is refused and changes nothing. Further steps that leave just the modes they
enter are never refused and leave everything as it was, so that each document is written as
before. -/
theorem settings_follow_stack (cs : List Step) :
    let s := start.after cs
    s.stack = cs.foldl Step.onStack [] ∧
    s.settings = (s.stack.headD .canonical).layout.toSettings ∧
    (s.stack = [] → s.pop = none ∧ leave s = .error .noMode s) ∧
    ∀ inner, Matched inner →
      run inner s = .ok () s ∧
        ∀ d : Document, d.format (s.after inner).settings = d.format s.settings := by
  intro s
  have stands : s = settled (cs.foldl Step.onStack []) := after_settled [] cs
  rw [stands]
  refine ⟨rfl, rfl, fun outside => ?_, fun inner matched => ⟨run_matched matched _, fun d => ?_⟩⟩
  · change cs.foldl Step.onStack [] = [] at outside
    rw [outside]
    exact ⟨rfl, leave_settled_nil⟩
  · rw [after_of_run (run_matched matched _)]

/-- Steps taken inside of a mode, after one that was refused and a mode that was left again; and
leaving more often than entering. -/
theorem settings_follow_stack_inside :
    let s := start.after [.leave, .enter .minified, .enter .canonical, .leave]
    let inner : List Step :=
      [.enter .canonical, .enter .canonical, .leave, .enter .minified, .leave, .leave]
    let t := start.after [.enter .minified, .leave, .leave]
    (s.stack = [.minified] ∧ s.settings = Layout.minified.toSettings ∧ Matched inner ∧
      run inner s = .ok () s ∧
        ∀ d : Document, d.format (s.after inner).settings = d.format s.settings) ∧
    t.stack = [] ∧ t.pop = none ∧ leave t = .error .noMode t := by
  intro s inner t
  have matched : Matched inner := by decide
  obtain ⟨stack, settings, -, restored⟩ :=
    settings_follow_stack [.leave, .enter .minified, .enter .canonical, .leave]
  obtain ⟨outside, -, refused, -⟩ := settings_follow_stack [.enter .minified, .leave, .leave]
  exact ⟨⟨stack, settings, matched, restored inner matched⟩, outside, refused outside⟩

end Modes

end StyleFactor
