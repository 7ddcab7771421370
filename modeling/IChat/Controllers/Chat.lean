import IChat.Manager.Runs

/-!
# `ChatViewController`

What a press of Send does: `inputBar(_:didPressSendButtonWith:)` and `createRandomEMessageId`. The
layout of the screen and the list of shown messages, which it never fills, are left out.
-/

namespace IChat

open Async Firebase

structure ChatViewController where
  otherUserEmail : String
  title : Option String
  isNewConversation : Bool
  deriving DecidableEq, Repr

/-- The text is empty or only spaces: `text.replacingOccurrences(of: " ", with: "").isEmpty`. -/
def isBlank (text : String) : Bool := text.toList.all fun c => c == ' '

/-- A press of Send: the chat, the formatter of the device, the clock when the id is built and when
the message is, and the text. -/
structure Press where
  chat : ChatViewController
  dateFormatter : DateFormatter
  idDate : Date
  sentDate : Date
  text : String

/-- A press of Send while `currentUser` is signed in and `DatabaseManager.shared` is `manager`. -/
structure Send extends Press where
  currentUser : String
  manager : DatabaseManager

namespace Send

/-- `createRandomEMessageId`. -/
def createRandomEMessageId (send : Send) : String :=
  let dateString := send.dateFormatter.string send.idDate
  let userEmail := safeEmail send.currentUser
  send.chat.otherUserEmail ++ userEmail ++ dateString

/-- The arguments of `createNewConversation`. -/
def request (send : Send) : ConversationRequest where
  manager := send.manager
  dateFormatter := send.dateFormatter
  otherUserEmail := send.chat.otherUserEmail
  otherUserName := send.chat.title.getD "User"
  firstMessage := ⟨send.createRandomEMessageId, send.sentDate, .text send.text⟩

/-- The text is more than spaces, and the chat is new. -/
def creates (send : Send) : Bool := !isBlank send.text && send.chat.isNewConversation

/-- `inputBar(_:didPressSendButtonWith:)`: without a conversation to create nothing happens. -/
def inputBar (send : Send) : Call Bool :=
  if send.creates then send.request.call else .stop

end Send

variable {ι : Type}

/-- Presses of Send. -/
def sends (db : Database) (s : ι → Send) (fates : ι → List Bool) :
    Config ι Database Path Value Bool where
  store := db
  jobs i := { prog := (s i).inputBar, fate := fates i }

theorem sends_prog (db : Database) (s : ι → Send) (fates : ι → List Bool) (i : ι) :
    ((sends db s fates).jobs i).prog = (s i).inputBar := by
  simp only [sends]

end IChat
