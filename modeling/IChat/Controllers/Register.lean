import IChat.Controllers.App

/-!
# `RegisterViewController`

The registration form: what a press of Register checks, and what the completions of `userExists` and
of `createUser` do. Both may arrive at any time, in any order, with edits of the fields in between.
The spinner and the upload of the picture are left out; the text of a field is never `nil`.

Swift's `String.count` counts grapheme clusters; it is the parameter `count`.
-/

namespace IChat

open Async Firebase

/-- The texts of the four fields. -/
structure Form where
  firstName : String
  lastName : String
  email : String
  password : String
  deriving DecidableEq, Repr

/-- The user that the completion of `signUp` makes from the fields. -/
def Form.chatUser (form : Form) : ChatAppUser := ⟨form.firstName, form.lastName, form.email⟩

structure RegisterViewController where
  form : Form
  /-- The alerts presented so far. -/
  alerts : List String
  /-- The emails whose existence check was not answered yet. -/
  checks : List String
  /-- The calls of `Auth.auth().createUser` that did not complete yet, as the form when Register was
  pressed, of which they got the email and the password. -/
  signUps : List Form
  /-- The email and the password of every call of `Auth.auth().createUser`. -/
  createUserCalls : List (String × String)
  /-- The users handed to `insertUser`, with the form when Register was pressed. -/
  handed : List (Form × ChatAppUser)
  dismissed : Bool
  app : App

/-- What the user does on the screen, and what Firebase delivers. -/
inductive RegisterEvent where
  /-- The texts of the fields change. -/
  | edit (form : Form)
  | registerBtnTapped
  /-- The completion of the `i`-th open existence check. -/
  | userExists (i : Nat)
  /-- The completion of the `i`-th open `createUser`, with a result or an error. -/
  | createUser (i : Nat) (success : Bool)
  /-- A client wrote on the server. -/
  | changed (db : Database)

namespace RegisterViewController

/-- `RegisterViewController` with empty fields. -/
def opened (app : App) : RegisterViewController where
  form := ⟨"", "", "", ""⟩
  alerts := []
  checks := []
  signUps := []
  createUserCalls := []
  handed := []
  dismissed := false
  app := app

/-- `alert(message:)`. -/
def alert (self : RegisterViewController) (message : String) : RegisterViewController :=
  { self with alerts := self.alerts ++ [message] }

/-- `signUp(email:password:)`. -/
def signUp (self : RegisterViewController) (email password : String) : RegisterViewController :=
  { self with
    signUps := self.signUps ++ [self.form]
    createUserCalls := self.createUserCalls ++ [(email, password)] }

/-- `registerBtnTapped`: neither empty names nor the existence check stop the call of `signUp`. -/
def registerBtnTapped (count : String → Nat) (self : RegisterViewController) :
    Option RegisterViewController :=
  let form := self.form
  let self := if form.firstName.isEmpty then self.alert "Please Enter First Name" else self
  let self := if form.lastName.isEmpty then self.alert "Please Enter Last Name" else self
  if form.email.isEmpty then some (self.alert "Please Enter Email Address")
  else if form.password.isEmpty then some (self.alert "Please Enter Password")
  else if count form.password < 6 then
    some (self.alert "Please Enter Password more than 6 charachter")
  else do
    let app ← self.app.call fun _ => .userExists form.email
    let _ ← child (safeEmail form.email)
    let self := { self with app := app, checks := self.checks ++ [form.email] }
    return self.signUp form.email form.password

/-- The completion of `userExists` in `registerBtnTapped`, for the data on the server. -/
def userExists (self : RegisterViewController) (i : Nat) : RegisterViewController :=
  match self.checks[i]? with
  | none => self
  | some email =>
    let self := { self with checks := self.checks.eraseIdx i }
    if self.dismissed then self
    else match (exec (DatabaseManager.userExists email) self.app.store []).2.answer with
      | some true => self.alert "email is already exisits"
      | _ => self

/-- The completion of `createUser` in `signUp`: errors are printed only. -/
def createUser (self : RegisterViewController) (i : Nat) (success : Bool) :
    Option RegisterViewController :=
  match self.signUps[i]? with
  | none => some self
  | some pressed =>
    let self := { self with signUps := self.signUps.eraseIdx i }
    if success then do
      let chatUser := self.form.chatUser
      let app ← self.app.step (.userCreated pressed.email chatUser)
      let _ ← child chatUser.safeEmail
      return { self with
        app := app, dismissed := true, handed := self.handed ++ [(pressed, chatUser)] }
    else some self

def step (count : String → Nat) (self : RegisterViewController) :
    RegisterEvent → Option RegisterViewController
  | .edit form => some { self with form := form }
  | .registerBtnTapped => self.registerBtnTapped count
  | .userExists i => some (self.userExists i)
  | .createUser i success => self.createUser i success
  | .changed db => some { self with app := self.app.changed db }

end RegisterViewController

end IChat
