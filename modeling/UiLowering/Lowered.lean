import UiLowering.Fault
import UiLowering.Notice

/-!
# Results of lowering

Lowering yields a value or a fault, and on the way notices.  `Lowered` holds both: what was noticed
before a fault is kept.  The notices never influence the result, which `result_bind` states.  They
say whether there is an answer: a type whose name never ends is asked for in vain, and nothing that
would come behind it is reached (`answer?`).
-/

set_option autoImplicit false

namespace UiLowering

/-- A value or a fault, with the notices in the order in which they arose. -/
structure Lowered (α : Type) where
  notices : List Notice
  result : Except Fault α

namespace Lowered

variable {α β : Type}

/-- A value without notices. -/
protected def pure (value : α) : Lowered α := ⟨[], .ok value⟩

/-- First `x`, then, if it has a value, `f` on that value. -/
protected def bind (x : Lowered α) (f : α → Lowered β) : Lowered β :=
  match x.result with
  | .ok value =>
    let y := f value
    ⟨x.notices ++ y.notices, y.result⟩
  | .error fault => ⟨x.notices, .error fault⟩

instance : Monad Lowered where
  pure := Lowered.pure
  bind := Lowered.bind

/-- One notice. -/
def note (notice : Notice) : Lowered Unit := ⟨[notice], .ok ()⟩

/-- A fault. -/
def fail (fault : Fault) : Lowered α := ⟨[], .error fault⟩

/-- The answer to a request, unless a type was asked for whose name never ends. -/
def answer? (x : Lowered α) : Option (Except Fault α) :=
  if x.notices.any Notice.isEndless then none else some x.result

/-- The results in order; the first fault ends the list. -/
def all : List (Lowered α) → Lowered (List α)
  | [] => pure []
  | x :: xs => do
    let value ← x
    let values ← all xs
    return value :: values

@[simp] theorem result_pure (value : α) : (pure value : Lowered α).result = .ok value := rfl

@[simp] theorem result_bind (x : Lowered α) (f : α → Lowered β) :
    (x >>= f).result = x.result >>= fun value => (f value).result := by
  change (Lowered.bind x f).result = _
  unfold Lowered.bind
  cases h : x.result <;> rfl

end Lowered

end UiLowering
