/-!
Results that come with a log of what happened on the way to them.
-/
namespace StyleFactor

inductive Level where
  | debug
  | info
  | warning
  deriving DecidableEq, Repr, Inhabited

structure Event where
  level : Level
  message : String
  deriving DecidableEq, Repr, Inhabited

structure Logged (α : Type) where
  log : List Event
  value : α
  deriving Repr, Inhabited

namespace Logged

variable {α β : Type}

instance : Monad Logged where
  pure a := ⟨[], a⟩
  bind x f := ⟨x.log ++ (f x.value).log, (f x.value).value⟩

def event (level : Level) (message : String) : Logged Unit := ⟨[⟨level, message⟩], ()⟩

@[simp] theorem value_pure (a : α) : (pure a : Logged α).value = a := rfl

@[simp] theorem log_pure (a : α) : (pure a : Logged α).log = [] := rfl

@[simp] theorem value_bind (x : Logged α) (f : α → Logged β) :
    (x >>= f).value = (f x.value).value := rfl

@[simp] theorem log_bind (x : Logged α) (f : α → Logged β) :
    (x >>= f).log = x.log ++ (f x.value).log := rfl

@[simp] theorem log_event (level : Level) (message : String) :
    (event level message).log = [⟨level, message⟩] := rfl

end Logged

end StyleFactor
