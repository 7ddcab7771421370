import IChat.Controllers.Screens

/-!
# The spinner of `RegisterViewController`

The handlers of the registration form again, with what they do to the spinner: a press of Register
that passes the checks shows it, and the completion of `createUser` with a result queues a block
that dismisses it. It is visible from the time it is shown until it is dismissed next. A
`userExists` whose read is cancelled has no completion, and no event.
-/

namespace IChat

structure RegisterSpinner where
  screen : RegisterViewController
  /-- The spinner was shown and not dismissed since. -/
  spinner : Bool
  /-- The queued blocks that dismiss it. -/
  dismissals : Nat
  /-- A `createUser` completed with a result since the spinner was last shown, or its block was
  still queued then. -/
  answered : Bool

inductive SpinnerEvent where
  | handler (e : RegisterEvent)
  /-- The next queued block runs. -/
  | dismiss

namespace RegisterSpinner

def opened (app : App) : RegisterSpinner where
  screen := .opened app
  spinner := false
  dismissals := 0
  answered := false

def registerBtnTapped (count : String → Nat) (self : RegisterSpinner) : Option RegisterSpinner := do
  let screen ← self.screen.registerBtnTapped count
  if self.screen.form.passes count then
    return { self with screen := screen, spinner := true, answered := decide (0 < self.dismissals) }
  else return { self with screen := screen }

/-- The completion of `createUser` in `signUp`: only a result dismisses the spinner. -/
def createUser (self : RegisterSpinner) (i : Nat) (success : Bool) : Option RegisterSpinner := do
  let screen ← self.screen.createUser i success
  if success && self.screen.signUps[i]?.isSome then
    return { self with screen := screen, dismissals := self.dismissals + 1, answered := true }
  else return { self with screen := screen }

def dismiss (self : RegisterSpinner) : RegisterSpinner :=
  if self.dismissals = 0 then self
  else { self with spinner := false, dismissals := self.dismissals - 1 }

def step (count : String → Nat) (self : RegisterSpinner) : SpinnerEvent → Option RegisterSpinner
  | .handler .registerBtnTapped => self.registerBtnTapped count
  | .handler (.createUser i success) => self.createUser i success
  | .handler e => do
    let screen ← self.screen.step count e
    return { self with screen := screen }
  | .dismiss => some self.dismiss

/-- The handlers do to the screen what they do without a spinner. -/
theorem step_handler (count : String → Nat) (self : RegisterSpinner) (e : RegisterEvent) :
    (self.step count (.handler e)).map screen = self.screen.step count e := by
  cases e with
  | edit form => rfl
  | userExists i => rfl
  | changed db => rfl
  | registerBtnTapped =>
    simp only [step, registerBtnTapped, RegisterViewController.step]
    cases self.screen.registerBtnTapped count with
    | none => rfl
    | some screen => simp only [Option.bind_eq_bind, Option.bind_some]; split <;> rfl
  | createUser i success =>
    simp only [step, createUser, RegisterViewController.step]
    cases self.screen.createUser i success with
    | none => rfl
    | some screen => simp only [Option.bind_eq_bind, Option.bind_some]; split <;> rfl

end RegisterSpinner

end IChat
