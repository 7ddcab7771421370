import IChat.Controllers.Pictures
import IChat.Controllers.Register

/-!
# The screens

Which events a user can cause, and when: the tab bar of `Main.storyboard` with the stack of
`ConversationViewController` and with `ProfileViewController`, and what is presented over it. The
view of the first tab is loaded at launch, that of the second when it is first shown. Login is
presented full screen: it is left by its own `dismiss` only.

The completions of `signIn` and of `createUser` may come at any time after the launch, from a
screen that is still there or not (`dismisses`). A failed `signOut` does nothing and is left out, as
are the alerts.
-/

namespace IChat

open Firebase

/-! ## Forced unwraps -/

namespace App

/-- What the initializer of `DatabaseManager.shared` unwraps, if it was not used yet. -/
def unwrapsShared (app : App) : List (Option String) :=
  match app.manager with
  | some _ => []
  | none => [app.currentUser]

/-- The values of `Auth.auth().currentUser?.email` that the event unwraps. -/
def unwraps (app : App) : Event → List (Option String)
  | .register _ | .search => app.unwrapsShared
  | .userCreated email _ => { app with currentUser := some email }.unwrapsShared
  | .conversationsLoaded =>
    match app.listener with
    | some _ => []
    | none => app.currentUser :: app.unwrapsShared
  | .profileAppeared | .chatOpened => [app.currentUser]
  | .send press =>
    if isBlank press.text then []
    else app.currentUser :: if press.chat.isNewConversation then app.unwrapsShared else []
  | .login _ | .signOut | .changed _ | .valueEvent _ => []

/-- What a list of events unwraps. -/
def unwrapsAll : App → List Event → List (Option String)
  | _, [] => []
  | app, e :: es =>
    app.unwraps e ++ match app.step e with
      | some app => app.unwrapsAll es
      | none => []

end App

/-! ## What is on the screen -/

inductive Tab where
  | chats
  | profile
  deriving DecidableEq, Repr

/-- What covers the tabs. -/
inductive Modal where
  /-- `NewConversationViewController`. -/
  | compose
  /-- `LoginViewController`, with `RegisterViewController` pushed over it or not. -/
  | login (registering : Bool)
  deriving DecidableEq, Repr

structure Screens where
  app : App
  /-- The view of `ConversationViewController` is loaded. -/
  loaded : Bool
  /-- The view of `ProfileViewController` is loaded. -/
  profileLoaded : Bool
  tab : Tab
  /-- The chats pushed over `ConversationViewController`, the last one first. -/
  chats : List ChatViewController
  modal : Option Modal

inductive ScreenEvent where
  /-- `ConversationViewController.viewDidLoad`. -/
  | viewDidLoad
  /-- `ConversationViewController.viewDidAppear`. -/
  | viewDidAppear
  | showChats
  | showProfile
  | didTapCompose
  /-- `NewConversationViewController.dismissSelf`, or a swipe. -/
  | dismissSelf
  /-- `NewConversationViewController.searchUsers`. -/
  | search
  /-- `didSelectRowAt` in `NewConversationViewController`. -/
  | selectUser (result : List (String × String))
  /-- `didSelectRowAt` in `ConversationViewController`. -/
  | selectRow (i : Nat)
  /-- The chat on top is popped. -/
  | back
  /-- A press of Send in the chat on top. -/
  | send (press : Press)
  /-- `didSelectRowAt` in `ProfileViewController`. -/
  | logOut
  /-- The completion of `signIn`. -/
  | login (dismisses : Bool) (authResult : Option String)
  | didTapRegister
  /-- `RegisterViewController` is popped. -/
  | backToLogin
  | registerBtnTapped (form : Form)
  /-- The completion of `createUser`. -/
  | userCreated (dismisses : Bool) (email : String) (chatUser : ChatAppUser)
  /-- A client wrote on the server. -/
  | changed (db : Database)
  /-- The listener of the conversations is called. -/
  | valueEvent (i : Nat)

/-- The form passes the checks of `registerBtnTapped` on email and password. -/
def Form.passes (count : String → Nat) (form : Form) : Bool :=
  !form.email.isEmpty && !form.password.isEmpty && decide (6 ≤ count form.password)

namespace Screens

/-- The screens at the launch of the process. -/
def launch (currentUser : Option String) (store : Database) : Screens where
  app := .launch currentUser store
  loaded := false
  profileLoaded := false
  tab := .chats
  chats := []
  modal := none

/-- The tabs are shown and nothing covers them. -/
def uncovered (s : Screens) : Bool := s.loaded && s.modal.isNone

/-- `ConversationViewController` is what the user sees. -/
def showsConversations (s : Screens) : Bool :=
  s.uncovered && s.tab == .chats && s.chats.isEmpty

/-- The screens allow the event. -/
def allows (s : Screens) : ScreenEvent → Bool
  | .viewDidLoad => !s.loaded
  | .viewDidAppear | .didTapCompose | .selectRow _ => s.showsConversations
  | .showChats | .logOut => s.uncovered && s.tab == .profile
  | .showProfile => s.uncovered && s.tab == .chats
  | .back | .send _ => s.uncovered && s.tab == .chats && !s.chats.isEmpty
  | .dismissSelf | .search | .selectUser _ => s.loaded && s.modal == some .compose
  | .didTapRegister => s.loaded && s.modal == some (.login false)
  | .backToLogin | .registerBtnTapped _ => s.loaded && s.modal == some (.login true)
  | .login .. | .userCreated .. | .valueEvent _ => s.loaded
  | .changed _ => true

/-- Login is dismissed, by itself or by the registration over it: the tab below appears again. -/
def dismissLogin (s : Screens) : Screens × List Event :=
  match s.modal, s.tab with
  | some (.login _), .profile => ({ s with modal := none }, [.profileAppeared])
  | some (.login _), .chats => ({ s with modal := none }, [])
  | _, _ => (s, [])

/-- What an event that is allowed shows, and what it makes the process do. -/
def react (count : String → Nat) (s : Screens) : ScreenEvent → Option (Screens × List Event)
  | .viewDidLoad => some ({ s with loaded := true }, [.conversationsLoaded])
  | .viewDidAppear =>
    some (match s.app.currentUser with
      | none => { s with modal := some (.login false) }
      | some _ => s, [])
  | .showChats => some ({ s with tab := .chats }, [])
  | .showProfile =>
    -- `viewWillAppear`, the first time after `viewDidLoad`, which builds the same header
    some ({ s with tab := .profile, profileLoaded := true },
      if s.profileLoaded then [.profileAppeared] else [.profileAppeared, .profileAppeared])
  | .didTapCompose => some ({ s with modal := some .compose }, [])
  | .dismissSelf => some ({ s with modal := none }, [])
  | .search => some (s, [.search])
  | .selectUser result => do
    let chat ← composeChat result
    return ({ s with modal := none, chats := chat :: s.chats }, [.chatOpened])
  | .selectRow i =>
    some (match s.app.conversations[i]? with
      | some model =>
        ({ s with chats := ⟨model.otherUserEmail, some model.name, false⟩ :: s.chats },
          [.chatOpened])
      | none => (s, []))
  | .back => some ({ s with chats := s.chats.tail }, [])
  | .send press =>
    some (s, match s.chats with
      | chat :: _ => [.send { press with chat := chat }]
      | [] => [])
  | .logOut => some ({ s with modal := some (.login false) }, [.signOut])
  | .login dismisses authResult =>
    let (s', es) := if authResult.isSome && dismisses then s.dismissLogin else (s, [])
    some (s', .login authResult :: es)
  | .didTapRegister => some ({ s with modal := some (.login true) }, [])
  | .backToLogin => some ({ s with modal := some (.login false) }, [])
  | .registerBtnTapped form =>
    some (s, if form.passes count then [.register form.email] else [])
  | .userCreated dismisses email chatUser =>
    let (s', es) := if dismisses then s.dismissLogin else (s, [])
    some (s', .userCreated email chatUser :: es)
  | .changed db => some (s, [.changed db])
  | .valueEvent i => some (s, [.valueEvent i])

/-- An event that the screens do not allow does nothing. -/
def step (count : String → Nat) (s : Screens) (e : ScreenEvent) : Option Screens :=
  if s.allows e then do
    let (s', es) ← s.react count e
    let app ← s.app.run es
    return { s' with app := app }
  else some s

/-- What the event unwraps. -/
def unwraps (count : String → Nat) (s : Screens) (e : ScreenEvent) : List (Option String) :=
  if s.allows e then
    match s.react count e with
    | some (_, es) => s.app.unwrapsAll es
    | none => []
  else []

/-- The screens after events since the launch. -/
abbrev run (count : String → Nat) (s : Screens) (es : List ScreenEvent) : Option Screens :=
  Machine.run (step count) s es

end Screens

end IChat
