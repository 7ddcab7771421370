import IChat.Controllers.Chat
import IChat.Events.Machine

/-!
# The process

One process of the application, driven by what its user does and by what Firebase delivers: the
session of `Auth.auth()`, the lazily created `DatabaseManager.shared`, and the conversations that
`ConversationViewController` holds. A forced unwrap of `nil` and an illegal path end the process.

The calls of `DatabaseManager.shared` are recorded in `requests`, with the account signed in when
they were made. What they, and every other client, write on the server comes as `changed`.
-/

namespace IChat

open Firebase

/-- A call of `DatabaseManager.shared`. -/
inductive Request where
  | userExists (email : String)
  | insertUser (user : ChatAppUser)
  | getallUser
  | createNewConversation (req : ConversationRequest)
  | getAllConversation (email : String)

/-- The value listener of `getAllConversation`: its argument, its path, and the values there since
it was attached. -/
structure Listener where
  email : String
  path : Path
  snapshots : List Value

/-- The listener after a change on the server. -/
def Listener.record (listener : Listener) (db : Database) : Listener :=
  { listener with snapshots := listener.snapshots ++ [db.value listener.path] }

/-- What `ConversationViewController` holds after the completion of `getAllConversation`: failures
and empty lists are ignored. -/
def received (held : List Conversation) : Except DatabaseError (List Conversation) → List Conversation
  | .ok conversations => if conversations.isEmpty then held else conversations
  | .error _ => held

structure App where
  /-- `Auth.auth().currentUser?.email` -/
  currentUser : Option String
  /-- `DatabaseManager.shared`, once it was used. -/
  manager : Option DatabaseManager
  requests : List (Option String × Request)
  listener : Option Listener
  /-- `ConversationViewController.conversations` -/
  conversations : List Conversation
  store : Database

/-- What the user does and what Firebase delivers. -/
inductive Event where
  /-- The completion of `signIn` in `LoginViewController.login`. -/
  | login (authResult : Option String)
  /-- Log out in `ProfileViewController`. -/
  | signOut
  /-- Register with a complete form in `RegisterViewController`. -/
  | register (email : String)
  /-- The completion of `createUser` in `RegisterViewController.signUp`, for the account `email`. -/
  | userCreated (email : String) (chatUser : ChatAppUser)
  /-- `ConversationViewController.viewDidLoad`. -/
  | conversationsLoaded
  /-- `ProfileViewController.viewWillAppear`. -/
  | profileAppeared
  /-- A search that fetches the users, in `NewConversationViewController.searchUsers`. -/
  | search
  /-- `ChatViewController.init`. -/
  | chatOpened
  /-- `ChatViewController.inputBar(_:didPressSendButtonWith:)`. -/
  | send (press : Press)
  /-- A client wrote on the server. -/
  | changed (db : Database)
  /-- The listener is called with one of the values that were at its path. -/
  | valueEvent (i : Nat)

/-- The account that an event signs in. -/
def Event.signsIn : Event → Option String
  | login authResult => authResult
  | userCreated email _ => some email
  | _ => none

namespace App

/-- The process at its launch, with a session that `Auth` kept or none. -/
def launch (currentUser : Option String) (store : Database) : App where
  currentUser := currentUser
  manager := none
  requests := []
  listener := none
  conversations := []
  store := store

/-- `DatabaseManager.shared`: the initializer runs at the first use and unwraps the email of the
account signed in then. -/
def shared (app : App) : Option (DatabaseManager × App) :=
  match app.manager with
  | some manager => some (manager, app)
  | none => do
    let userEmail ← app.currentUser
    return (⟨userEmail⟩, { app with manager := some ⟨userEmail⟩ })

/-- A call of `DatabaseManager.shared`. -/
def call (app : App) (request : DatabaseManager → Request) : Option App := do
  let (manager, app) ← app.shared
  return { app with requests := app.requests ++ [(app.currentUser, request manager)] }

/-- `startListinigForConversation`. UIKit loads the view once. -/
def startListinigForConversation (app : App) : Option App :=
  match app.listener with
  | some _ => some app
  | none => do
    let userEmail ← app.currentUser
    let safeEmail := safeEmail userEmail
    let app ← app.call fun _ => .getAllConversation safeEmail
    let path ← child (safeEmail ++ "/conversations")
    return { app with listener := some ⟨safeEmail, path, [app.store.value path]⟩ }

/-- `inputBar(_:didPressSendButtonWith:)`. -/
def inputBar (app : App) (press : Press) : Option App :=
  if isBlank press.text then some app
  else do
    let currentUser ← app.currentUser
    if press.chat.isNewConversation then
      app.call fun manager => .createNewConversation (Send.request ⟨press, currentUser, manager⟩)
    else some app

/-- Another store: the listener is going to be called with what is at its path. -/
def changed (app : App) (db : Database) : App :=
  { app with store := db, listener := app.listener.map (·.record db) }

/-- The listener is called with one of its values. -/
def valueEvent (app : App) (i : Nat) : App :=
  match app.listener.bind (·.snapshots[i]?) with
  | some value =>
    { app with conversations := received app.conversations (conversationsOf value) }
  | none => app

def step (app : App) : Event → Option App
  | .login (some email) => some { app with currentUser := some email }
  | .login none => some app
  | .signOut => some { app with currentUser := none }
  | .register email => app.call fun _ => .userExists email
  | .userCreated email chatUser =>
    { app with currentUser := some email }.call fun _ => .insertUser chatUser
  | .conversationsLoaded => app.startListinigForConversation
  | .profileAppeared => do let _ ← app.currentUser; return app
  | .search => app.call fun _ => .getallUser
  | .chatOpened => do let _ ← app.currentUser; return app
  | .send press => app.inputBar press
  | .changed db => some (app.changed db)
  | .valueEvent i => some (app.valueEvent i)

/-- The process after events since its launch. -/
abbrev run (app : App) (es : List Event) : Option App := Machine.run step app es

end App

end IChat
