import IChat.Controllers.App
import IChat.Controllers.Pictures
import Mathlib.Logic.Function.Basic

/-!
# `ConversationViewController` and its cells

The table of conversations: a value event replaces the array at once and queues the reload on the
main queue, so other events of the main queue may come in between. UIKit asks for cells and selects
rows only below the row count of its last reload, which discards the cells.

A cell is reused: `configure(with:)` starts a lookup of the picture's URL, whose completion queues a
block that sets the picture. The picture is the URL that the image view was last given; that
`SDWebImage` loads and caches it is left out.
-/

namespace IChat

open Firebase

/-! ## The table -/

/-- A selected row: the conversation that its cell was configured with, the one that is opened, and
the chat that is pushed. -/
structure Selection where
  shown : Option Conversation
  model : Conversation
  chat : ChatViewController

structure ConversationViewController where
  conversations : List Conversation
  /-- The queued blocks that reload the table. -/
  reloads : Nat
  /-- The row count at the last reload. -/
  rows : Nat
  /-- What each cell that was made since was configured with. -/
  cells : Nat → Option Conversation
  selections : List Selection

/-- What Firebase, the main queue, UIKit and the user do. -/
inductive ConversationEvent where
  /-- The listener of `getAllConversation` is called with a snapshot. -/
  | valueEvent (snapshot : Value)
  /-- The next queued block runs. -/
  | reloadData
  | cellForRowAt (row : Nat)
  | didSelectRowAt (row : Nat)

namespace ConversationViewController

def opened : ConversationViewController where
  conversations := []
  reloads := 0
  rows := 0
  cells := fun _ => none
  selections := []

/-- The completion of `getAllConversation` in `startListinigForConversation`. -/
def valueEvent (self : ConversationViewController) (snapshot : Value) :
    ConversationViewController :=
  match conversationsOf snapshot with
  | .ok conversations =>
    if conversations.isEmpty then self
    else { self with conversations := conversations, reloads := self.reloads + 1 }
  | .error _ => self

def reloadData (self : ConversationViewController) : ConversationViewController :=
  if self.reloads = 0 then self
  else { self with
    reloads := self.reloads - 1, rows := self.conversations.length, cells := fun _ => none }

/-- `tableView(_:cellForRowAt:)`; an index out of range ends the process. -/
def cellForRowAt (self : ConversationViewController) (row : Nat) :
    Option ConversationViewController := do
  let model ← self.conversations[row]?
  return { self with cells := Function.update self.cells row (some model) }

/-- `tableView(_:didSelectRowAt:)`. -/
def didSelectRowAt (self : ConversationViewController) (row : Nat) :
    Option ConversationViewController := do
  let model ← self.conversations[row]?
  let vc : ChatViewController := ⟨model.otherUserEmail, some model.name, false⟩
  return { self with selections := self.selections ++ [⟨self.cells row, model, vc⟩] }

def step (self : ConversationViewController) :
    ConversationEvent → Option ConversationViewController
  | .valueEvent snapshot => some (self.valueEvent snapshot)
  | .reloadData => some self.reloadData
  | .cellForRowAt row => if row < self.rows then self.cellForRowAt row else some self
  | .didSelectRowAt row => if row < self.rows then self.didSelectRowAt row else some self

/-- The screen after events since it was loaded. -/
abbrev run (self : ConversationViewController) (es : List ConversationEvent) :
    Option ConversationViewController :=
  Machine.run step self es

/-- The array is what the process holds after the same snapshot. -/
theorem valueEvent_conversations (self : ConversationViewController) (snapshot : Value) :
    (self.valueEvent snapshot).conversations =
      received self.conversations (conversationsOf snapshot) := by
  unfold valueEvent received
  cases conversationsOf snapshot with
  | ok conversations => dsimp only; split <;> rfl
  | error e => rfl

end ConversationViewController

/-! ## The cells -/

/-- `StorageManager.storageError`. -/
inductive StorageError where
  | failedToUpload
  | failedTodownloadUrl
  deriving DecidableEq, Repr

/-- What `StorageManager.downloadUrl` completes with, for the result of Firebase. -/
def downloadUrl (url error : Option String) : Except StorageError String :=
  match url, error with
  | some url, none => .ok url
  | _, _ => .error .failedTodownloadUrl

/-- A picture: the path that was looked up, and the URL that was found. -/
structure Picture where
  path : String
  url : String
  deriving DecidableEq, Repr

structure ConversationsTableViewCell where
  userNameLabel : Option String
  userMessage : Option String
  /-- The conversation that the cell was last configured with. -/
  model : Option Conversation
  /-- The paths whose lookup did not complete yet. -/
  lookups : List String
  /-- The queued blocks that set a picture. -/
  blocks : List Picture
  userImageView : Option Picture

/-- What the table, Firebase and the main queue do with a cell. -/
inductive CellEvent where
  | configure (model : Conversation)
  /-- Firebase completes the `i`-th open lookup. -/
  | downloadUrl (i : Nat) (url error : Option String)
  /-- The next queued block runs. -/
  | setImage

namespace ConversationsTableViewCell

def blank : ConversationsTableViewCell where
  userNameLabel := none
  userMessage := none
  model := none
  lookups := []
  blocks := []
  userImageView := none

def configure (self : ConversationsTableViewCell) (model : Conversation) :
    ConversationsTableViewCell :=
  { self with
    userMessage := some model.latestMessage.text
    userNameLabel := some model.name
    model := some model
    lookups := self.lookups ++ [cellPath model] }

/-- The completion of `downloadUrl` in `configure(with:)`. -/
def lookedUp (self : ConversationsTableViewCell) (i : Nat) (result : Except StorageError String) :
    ConversationsTableViewCell :=
  match self.lookups[i]? with
  | none => self
  | some path =>
    let self := { self with lookups := self.lookups.eraseIdx i }
    match result with
    | .ok url => { self with blocks := self.blocks ++ [⟨path, url⟩] }
    | .error _ => self

/-- The queued block `userImageView.sd_setImage(with:completed:)`. -/
def setImage (self : ConversationsTableViewCell) : ConversationsTableViewCell :=
  match self.blocks with
  | [] => self
  | picture :: blocks => { self with blocks := blocks, userImageView := some picture }

def step (self : ConversationsTableViewCell) : CellEvent → Option ConversationsTableViewCell
  | .configure model => some (self.configure model)
  | .downloadUrl i url error => some (self.lookedUp i (IChat.downloadUrl url error))
  | .setImage => some self.setImage

end ConversationsTableViewCell

end IChat
