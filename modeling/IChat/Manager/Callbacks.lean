import IChat.Async.Callback
import IChat.Manager.Runs

/-!
# The callbacks of `DatabaseManager`

The four operations that complete once, with `completion` as a call that returns: every early return
of the source is a `done` of its own. Up to their first answer they are the clients of
`DatabaseManager` (`insertUser_prog` and its like).
-/

namespace IChat

open Async Firebase SortedMap

/-- The callbacks of an operation that completes with a `ρ`. -/
abbrev Callbacks (ρ : Type) := Body Path Value ρ

namespace Callbacks

/-- `database.child(s)`, and what is done there. -/
def atChild {ρ : Type} (s : String) (k : Path → Callbacks ρ) : Callbacks ρ :=
  match child s with
  | some p => k p
  | none => .raise

/-- `setValue` with a completion block that guards against an error. -/
def setValue (p : Path) (v : Value) (k : Callbacks Bool) : Callbacks Bool :=
  .write p v fun ok => if ok then k else .complete false .done

def userExists (email : String) : Callbacks Bool :=
  atChild (safeEmail email) fun node =>
    .read node fun value =>
      match value.asString with
      | none => .complete false .done
      | some _ => .complete true .done

def insertUser (user : ChatAppUser) : Callbacks Bool :=
  atChild user.safeEmail fun node =>
    setValue node (.ofStringDict user.node) <|
      atChild "users" fun users =>
        .read users fun value =>
          match value.asStringDictArray with
          | some userCollection =>
            setValue users (.ofStringDictArray (userCollection ++ [user.newUser])) <|
              .complete true .done
          | none =>
            setValue users (.ofStringDictArray [user.newUser]) <|
              .complete true .done

def getallUser : Callbacks (Except DatabaseError (List (List (String × String)))) :=
  atChild "users" fun users =>
    .read users fun value =>
      match value.asStringDictArray with
      | none => .complete (.error .failedToFetch) .done
      | some value => .complete (.ok value) .done

def finishCreateConversation (req : ConversationRequest) : Callbacks Bool :=
  atChild req.conversationKey fun conversation =>
    setValue conversation (.dict req.node) <|
      .complete true .done

def createNewConversation (req : ConversationRequest) : Callbacks Bool :=
  atChild req.userKey fun refrence =>
    .read refrence fun value =>
      match value.asDict with
      | none => .complete false .done
      | some userNode =>
        match (find "conversations" userNode).bind Value.asDictArray with
        | some conversations =>
          let conversations := Value.ofDictArray (conversations ++ [req.entry])
          let userNode := insert "conversations" conversations userNode
          setValue refrence (.dict userNode) (finishCreateConversation req)
        | none =>
          let userNode := insert "conversations" (.ofDictArray [req.entry]) userNode
          setValue refrence (.dict userNode) (finishCreateConversation req)

theorem prog_atChild {ρ : Type} (s : String) (k : Path → Callbacks ρ) :
    (atChild s k).prog = IChat.atChild s fun p => (k p).prog := by
  unfold atChild IChat.atChild
  cases child s <;> rfl

theorem prog_setValue (p : Path) (v : Value) (k : Callbacks Bool) :
    (setValue p v k).prog = IChat.setValue p v k.prog := by
  unfold setValue IChat.setValue
  rw [Body.prog]
  congr 1
  funext ok
  cases ok <;> rfl

end Callbacks

/-- What `completion` is called with. -/
abbrev CallAnswer := Bool ⊕ Except DatabaseError (List (List (String × String)))

/-- A call of one of the four operations. -/
inductive SingleCall where
  | userExists (email : String)
  | insertUser (user : ChatAppUser)
  | getallUser
  | createNewConversation (req : ConversationRequest)

namespace SingleCall

def body : SingleCall → Callbacks CallAnswer
  | .userExists email => (Callbacks.userExists email).map .inl
  | .insertUser user => (Callbacks.insertUser user).map .inl
  | .getallUser => Callbacks.getallUser.map .inr
  | .createNewConversation req => (Callbacks.createNewConversation req).map .inl

/-- What the call does with these replies of Firebase. -/
def run (op : SingleCall) (replies : List (Reply Value)) : Trace Path CallAnswer :=
  op.body.run replies

/-- The locations that the call has to write to do what it reports. -/
def due : SingleCall → Option (List (Option Path))
  | .insertUser user => some [child user.safeEmail, child "users"]
  | .createNewConversation req => some [child req.userKey, child req.conversationKey]
  | .userExists _ | .getallUser => none

end SingleCall

end IChat
