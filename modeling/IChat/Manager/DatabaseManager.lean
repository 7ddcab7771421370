import IChat.Manager.Schema

/-!
# `DatabaseManager`

The operations of `DatabaseManager.swift` as clients of the store, one read or write for each call
of the Firebase SDK, with the callbacks as continuations. What a client answers is what it passes
to `completion`.
-/

namespace IChat

open Async Firebase SortedMap

/-- An operation that completes with a `ρ`. -/
abbrev Call (ρ : Type) := Prog Path Value ρ

/-- `database.child(s)`, and what is done there. -/
def atChild {ρ : Type} (s : String) (k : Path → Call ρ) : Call ρ :=
  match child s with
  | some p => k p
  | none => .raise

/-- The value at `p` is read once (`observeSingleEvent`). -/
def observeSingleEvent {ρ : Type} (p : Path) (k : Value → Call ρ) : Call ρ := .read p k

/-- `setValue` with a completion block that completes with `false` on an error. -/
def setValue (p : Path) (v : Value) (k : Call Bool) : Call Bool :=
  .write p v fun ok => if ok then k else .ret false

structure DatabaseManager where
  userEmail : String
  deriving DecidableEq, Repr

namespace DatabaseManager

def userExists (email : String) : Call Bool :=
  atChild (safeEmail email) fun node =>
    observeSingleEvent node fun value =>
      match value.asString with
      | none => .ret false
      | some _ => .ret true

def insertUser (user : ChatAppUser) : Call Bool :=
  atChild user.safeEmail fun node =>
    setValue node (.ofStringDict user.node) <|
      atChild "users" fun users =>
        observeSingleEvent users fun value =>
          match value.asStringDictArray with
          | some userCollection =>
            setValue users (.ofStringDictArray (userCollection ++ [user.newUser])) (.ret true)
          | none => setValue users (.ofStringDictArray [user.newUser]) (.ret true)

def getallUser : Call (Except DatabaseError (List (List (String × String)))) :=
  atChild "users" fun users =>
    observeSingleEvent users fun value =>
      match value.asStringDictArray with
      | none => .ret (.error .failedToFetch)
      | some value => .ret (.ok value)

def finishCreateConversation (self : DatabaseManager) (dateFormatter : DateFormatter)
    (otherUserName conversationId : String) (firstMessage : Message) : Call Bool :=
  let message := messageData self.userEmail dateFormatter otherUserName firstMessage
  atChild conversationId fun conversation =>
    setValue conversation (.dict (conversationNode message)) (.ret true)

def createNewConversation (self : DatabaseManager) (dateFormatter : DateFormatter)
    (otherUserEmail otherUserName : String) (firstMessage : Message) : Call Bool :=
  atChild (safeEmail self.userEmail) fun refrence =>
    let conversationId := firstMessage.conversationId
    observeSingleEvent refrence fun value =>
      match value.asDict with
      | none => .ret false
      | some userNode =>
        let newConversationData :=
          newConversationData dateFormatter otherUserEmail otherUserName firstMessage
        match (find "conversations" userNode).bind Value.asDictArray with
        | some conversations =>
          let conversations := conversations ++ [newConversationData]
          let userNode := insert "conversations" (.ofDictArray conversations) userNode
          setValue refrence (.dict userNode) <|
            self.finishCreateConversation dateFormatter otherUserName conversationId firstMessage
        | none =>
          let userNode := insert "conversations" (.ofDictArray [newConversationData]) userNode
          setValue refrence (.dict userNode) <|
            self.finishCreateConversation dateFormatter otherUserName conversationId firstMessage

/-- One value event of `getAllConversation`. -/
def getAllConversation (email : String) : Call (Except DatabaseError (List Conversation)) :=
  atChild (email ++ "/conversations") fun conversations =>
    observeSingleEvent conversations fun value => .ret (conversationsOf value)

end DatabaseManager

end IChat
