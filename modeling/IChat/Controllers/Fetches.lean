import IChat.Controllers.NewConversation
import IChat.Firebase.Client

/-!
# The fetches of the search screen

`NewConversationViewController` beside the client of the database: a search that fetches observes a
single event of `users` (`getallUser`), and its completion is the event that this observer is called
for. In between the program's other screens may observe and write whatever they like.
-/

namespace IChat

open Firebase

/-- What `getallUser` completes with. -/
def fetchedUsers (snapshot : Value) : Except DatabaseError (List UserEntry) :=
  match snapshot.asStringDictArray with
  | none => .error .failedToFetch
  | some value => .ok value

/-- The screen and the client. -/
structure SearchSession where
  client : Client
  screen : NewConversationViewController
  /-- The observers of the open fetches. -/
  fetching : List Nat

/-- What happens on the screen and on the client's queues. -/
inductive SessionEvent where
  | screen (e : SearchEvent)
  | client (e : ClientEvent)

namespace SearchSession

def opened : SearchSession := ⟨Client.init, .opened, []⟩

def searchBarSearchButtonClicked (u : Unicode) (s : SearchSession) (text : String) :
    SearchSession :=
  let screen := s.screen.searchBarSearchButtonClicked u text
  if isBlank text || s.screen.hasFetched then { s with screen }
  else
    { client := s.client.observe ["users"] true
      screen
      fetching := s.fetching ++ [s.client.localUid] }

/-- An observer is called, perhaps that of an open fetch. -/
def called (u : Unicode) (s : SearchSession) (e : DataEvent) : SearchSession :=
  let i := s.fetching.idxOf e.eventRegistration
  if i < s.fetching.length then
    { s with
      screen := s.screen.getallUser u i (fetchedUsers (val e.snapshot))
      fetching := s.fetching.eraseIdx i }
  else s

/-- A fetch completes only when its observer is called. -/
def step (u : Unicode) (s : SearchSession) : SessionEvent → Option SearchSession
  | .screen (.searchBarSearchButtonClicked text) => some (s.searchBarSearchButtonClicked u text)
  | .screen (.getallUser _ _) => some s
  | .screen e => (s.screen.step u e).map fun screen => { s with screen }
  | .client .fireEvent =>
    let (client, call) := s.client.fireEvent
    match call with
    | some e => some ({ s with client }.called u e)
    | none => some { s with client }
  | .client e => (s.client.step e).map fun client => { s with client }

end SearchSession

end IChat
