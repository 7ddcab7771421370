import IChat.Manager.DatabaseManager

/-!
# Overlapping calls

Any number of calls, indexed by `ι`, that share the database: a configuration whose clients are
the calls. A schedule of `ι` interleaves their reads and writes; `fates` says which of them succeed.
-/

namespace IChat

open Async Firebase

variable {ι : Type}

/-- Calls of `insertUser`. -/
def registrations (db : Database) (users : ι → ChatAppUser) (fates : ι → List Bool) :
    Config ι Database Path Value Bool where
  store := db
  jobs i := { prog := DatabaseManager.insertUser (users i), fate := fates i }

/-- The arguments of a call of `createNewConversation`. -/
structure ConversationRequest where
  manager : DatabaseManager
  dateFormatter : DateFormatter
  otherUserEmail : String
  otherUserName : String
  firstMessage : Message

namespace ConversationRequest

def call (req : ConversationRequest) : Call Bool :=
  req.manager.createNewConversation req.dateFormatter req.otherUserEmail req.otherUserName
    req.firstMessage

/-- The key of the caller's node. -/
def userKey (req : ConversationRequest) : String := safeEmail req.manager.userEmail

/-- The key of the conversation's node. -/
def conversationKey (req : ConversationRequest) : String := req.firstMessage.conversationId

/-- The entry for the caller's list. -/
def entry (req : ConversationRequest) : List (String × Value) :=
  newConversationData req.dateFormatter req.otherUserEmail req.otherUserName req.firstMessage

/-- What is stored at the conversation's node. -/
def node (req : ConversationRequest) : List (String × Value) :=
  conversationNode <|
    messageData req.manager.userEmail req.dateFormatter req.otherUserName req.firstMessage

end ConversationRequest

/-- Calls of `createNewConversation`. -/
def creations (db : Database) (reqs : ι → ConversationRequest) (fates : ι → List Bool) :
    Config ι Database Path Value Bool where
  store := db
  jobs i := { prog := (reqs i).call, fate := fates i }

@[simp] theorem registrations_prog (db : Database) (users : ι → ChatAppUser)
    (fates : ι → List Bool) (i : ι) :
    ((registrations db users fates).jobs i).prog = DatabaseManager.insertUser (users i) := by
  simp only [registrations]

@[simp] theorem creations_prog (db : Database) (reqs : ι → ConversationRequest)
    (fates : ι → List Bool) (i : ι) : ((creations db reqs fates).jobs i).prog = (reqs i).call := by
  simp only [creations]

/-- The entries of the directory. -/
def directory (db : Database) : List Value := entries (db.value ["users"])

/-- The entries of the `conversations` list in a user's node. -/
def conversationList (db : Database) (user : Path) : List Value :=
  entries ((db.value user).field "conversations")

end IChat
