import IChat.Firebase.Reference

/-!
# The data of the application

The types of `DatabaseManager.swift`, `ChatViewController.swift` and
`ConversationViewController.swift` that are stored or read, the dictionaries that store them, and
the decoder of a conversation. Fields that nothing stored depends on (the sender of a `Message`, the
payloads of the message kinds other than text) are left out.
-/

namespace IChat

open Firebase SortedMap

/-- `String.replacingOccurrences(of:with:)` for single characters, by code point. Foundation does
not replace a character that a combining mark follows; this is left out. -/
def replacingOccurrences (of w : Char) (s : String) : String :=
  String.ofList (s.toList.map fun c => if c = of then w else c)

/-- `DatabaseManager.safeEmail(email:)`. -/
def safeEmail (email : String) : String :=
  replacingOccurrences '@' '-' (replacingOccurrences '.' '-' email)

structure ChatAppUser where
  firstName : String
  lastName : String
  email : String
  deriving DecidableEq, Repr

namespace ChatAppUser

def safeEmail (user : ChatAppUser) : String :=
  replacingOccurrences '@' '-' (replacingOccurrences '.' '-' user.email)

def profilePictureFileName (user : ChatAppUser) : String :=
  user.safeEmail ++ "_profile_picture.png"

/-- What `insertUser` writes at the user's node. -/
def node (user : ChatAppUser) : List (String × String) :=
  ofList [("first_name", user.firstName), ("last_name", user.lastName)]

/-- What `insertUser` appends to the directory (`newUser`). -/
def newUser (user : ChatAppUser) : List (String × String) :=
  ofList [("name", user.firstName ++ " " ++ user.lastName), ("safeEmail", user.safeEmail)]

end ChatAppUser

/-- A point in time, in seconds. -/
abbrev Date := Rat

/-- `ChatViewController.dateFormatter`: what it prints depends on the whole seconds only. -/
structure DateFormatter where
  ofSeconds : Int → String

/-- `dateFormatter.string(from:)`. -/
def DateFormatter.string (dateFormatter : DateFormatter) (date : Date) : String :=
  dateFormatter.ofSeconds date.floor

inductive MessageKind where
  | text (textMessage : String)
  | attributedText
  | photo
  | video
  | location
  | emoji
  | audio
  | contact
  | custom
  deriving DecidableEq, Repr

namespace MessageKind

def description : MessageKind → String
  | text _ => "text"
  | attributedText => "attributedText"
  | photo => "photo"
  | video => "video"
  | location => "location"
  | emoji => "emoji"
  | audio => "audio"
  | contact => "contact"
  | custom => "custom"

/-- The text that is stored: empty for every kind but text (`sentMessage`). -/
def sentMessage : MessageKind → String
  | text textMessage => textMessage
  | _ => ""

end MessageKind

structure Message where
  messageId : String
  sentDate : Date
  kind : MessageKind
  deriving DecidableEq, Repr

/-- The key of a message's conversation (`conversationId`). -/
def Message.conversationId (message : Message) : String := "conversation_" ++ message.messageId

/-- The entry `createNewConversation` appends to the caller's `conversations`
(`newConversationData`). -/
def newConversationData (dateFormatter : DateFormatter) (otherUserEmail otherUserName : String)
    (firstMessage : Message) : List (String × Value) :=
  ofList [
    ("id", .str firstMessage.conversationId),
    ("other_user_email", .str otherUserEmail),
    ("otherUserName", .str otherUserName),
    ("latest_message", .dict <| ofList [
      ("date", .str (dateFormatter.string firstMessage.sentDate)),
      ("message", .str firstMessage.kind.sentMessage),
      ("is_read", .bool false)])]

/-- The message `finishCreateConversation` stores. -/
def messageData (userEmail : String) (dateFormatter : DateFormatter) (otherUserName : String)
    (firstMessage : Message) : List (String × Value) :=
  ofList [
    ("id", .str firstMessage.messageId),
    ("type", .str firstMessage.kind.description),
    ("content", .str firstMessage.kind.sentMessage),
    ("date", .str (dateFormatter.string firstMessage.sentDate)),
    ("sendr_email", .str userEmail),
    ("isReda", .bool false),
    ("otherUserName", .str otherUserName)]

/-- The node of a conversation with one message. -/
def conversationNode (message : List (String × Value)) : List (String × Value) :=
  ofList [("messages", .ofDictArray [message])]

/-- `DatabaseManager.DatabaseError`. -/
inductive DatabaseError where
  | failedToFetch
  deriving DecidableEq, Repr

structure LatestMessage where
  date : String
  text : String
  isRead : Bool
  deriving DecidableEq, Repr

structure Conversation where
  id : String
  name : String
  otherUserEmail : String
  latestMessage : LatestMessage
  deriving DecidableEq, Repr

/-- The conversation stored in an entry, if all its fields are there and have the right types
(the `guard` of `getAllConversation`). -/
def Conversation.ofDictionary (dictionary : List (String × Value)) : Option Conversation := do
  let conversationId ← (find "id" dictionary).bind Value.asString
  let otherUserName ← (find "otherUserName" dictionary).bind Value.asString
  let otherUserEmail ← (find "other_user_email" dictionary).bind Value.asString
  let lastestMessage ← (find "latest_message" dictionary).bind Value.asDict
  let date ← (find "date" lastestMessage).bind Value.asString
  let isRead ← (find "is_read" lastestMessage).bind Value.asBool
  let message ← (find "message" lastestMessage).bind Value.asString
  return ⟨conversationId, otherUserName, otherUserEmail, ⟨date, message, isRead⟩⟩

/-- What `getAllConversation` answers for a snapshot of a user's `conversations`. -/
def conversationsOf (value : Value) : Except DatabaseError (List Conversation) :=
  match value.asDictArray with
  | none => .error .failedToFetch
  | some conversation => .ok (conversation.filterMap Conversation.ofDictionary)

end IChat
