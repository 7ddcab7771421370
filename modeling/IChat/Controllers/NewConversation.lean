import IChat.Controllers.Pictures
import IChat.Events.Machine
import Mathlib.Logic.Function.Basic

/-!
# `NewConversationViewController`

The search screen: the press of the search button, the completions of `getallUser` in any order, and
the table of results. UIKit asks for cells and selects rows only while the table is visible, and
only below the row count of its last reload; a reload discards the cells. The text of the search bar
is never `nil`, and the selected user is passed to `completion` when the screen is dismissed. A
fetch whose read is cancelled has no completion: it stays among the open ones.
-/

namespace IChat

open Firebase SortedMap

/-- What the search uses of Swift's strings: their characters, up to canonical equivalence, and
`lowercased()`. -/
structure Unicode where
  Character : Type
  decEq : DecidableEq Character
  characters : String → List Character
  lowercased : String → String

namespace Unicode

variable (u : Unicode)

instance : DecidableEq u.Character := u.decEq

/-- `s.hasPrefix(t)`. -/
def hasPrefix (s t : String) : Bool := (u.characters t).isPrefixOf (u.characters s)

/-- The text as the search compares it. -/
def folded (s : String) : List u.Character := u.characters (u.lowercased s)

end Unicode

/-- ASCII texts. -/
def asciiUnicode : Unicode where
  Character := Char
  decEq := inferInstance
  characters := String.toList
  lowercased s := String.ofList (s.toList.map Char.toLower)

/-- A `[String:String]` of the directory. -/
abbrev UserEntry := List (String × String)

/-- The closure of `filterUser`. -/
def nameMatches (u : Unicode) (item : String) (user : UserEntry) : Bool :=
  match find "name" user with
  | none => false
  | some name => u.hasPrefix (u.lowercased name) (u.lowercased item)

structure NewConversationViewController where
  users : List UserEntry
  results : List UserEntry
  hasFetched : Bool
  /-- The queries whose `getallUser` did not complete yet. -/
  fetches : List String
  /-- The queries submitted so far. -/
  submitted : List String
  /-- The spinner was shown and not dismissed since. -/
  spinner : Bool
  noResultLabelIsHidden : Bool
  tableIsHidden : Bool
  /-- The row count at the last reload. -/
  rows : Nat
  /-- The text of each cell that was made since. -/
  cells : Nat → Option (Option String)
  /-- The users passed to `completion`. -/
  completions : List UserEntry

/-- What the user, UIKit and Firebase do on the screen. -/
inductive SearchEvent where
  | searchBarSearchButtonClicked (text : String)
  /-- The completion of the `i`-th open `getallUser`. -/
  | getallUser (i : Nat) (result : Except DatabaseError (List UserEntry))
  | cellForRowAt (row : Nat)
  | didSelectRowAt (row : Nat)

namespace NewConversationViewController

def opened : NewConversationViewController where
  users := []
  results := []
  hasFetched := false
  fetches := []
  submitted := []
  spinner := false
  noResultLabelIsHidden := true
  tableIsHidden := true
  rows := 0
  cells := fun _ => none
  completions := []

/-- `tableView.reloadData()`. -/
def reloadData (self : NewConversationViewController) : NewConversationViewController :=
  { self with rows := self.results.length, cells := fun _ => none }

def updateUi (self : NewConversationViewController) : NewConversationViewController :=
  if self.results.isEmpty then { self with noResultLabelIsHidden := false, tableIsHidden := true }
  else { self with noResultLabelIsHidden := true, tableIsHidden := false }.reloadData

def filterUser (u : Unicode) (self : NewConversationViewController) (item : String) :
    NewConversationViewController :=
  if self.hasFetched then
    { self with spinner := false, results := self.users.filter (nameMatches u item) }.updateUi
  else self

def searchUsers (u : Unicode) (self : NewConversationViewController) (query : String) :
    NewConversationViewController :=
  if self.hasFetched then self.filterUser u query
  else { self with fetches := self.fetches ++ [query] }

def searchBarSearchButtonClicked (u : Unicode) (self : NewConversationViewController)
    (text : String) : NewConversationViewController :=
  if isBlank text then self
  else { self with
    submitted := self.submitted ++ [text], results := [], spinner := true }.searchUsers u text

/-- The completion of `getallUser` in `searchUsers`: an error is printed only. -/
def getallUser (u : Unicode) (self : NewConversationViewController) (i : Nat)
    (result : Except DatabaseError (List UserEntry)) : NewConversationViewController :=
  match self.fetches[i]? with
  | none => self
  | some query =>
    let self := { self with fetches := self.fetches.eraseIdx i }
    match result with
    | .ok usersArray => { self with hasFetched := true, users := usersArray }.filterUser u query
    | .error _ => self

/-- `tableView(_:cellForRowAt:)`; an index out of range ends the process. -/
def cellForRowAt (self : NewConversationViewController) (row : Nat) :
    Option NewConversationViewController := do
  let user ← self.results[row]?
  return { self with cells := Function.update self.cells row (some (find "name" user)) }

/-- `tableView(_:didSelectRowAt:)`. -/
def didSelectRowAt (self : NewConversationViewController) (row : Nat) :
    Option NewConversationViewController := do
  let targetUer ← self.results[row]?
  return { self with completions := self.completions ++ [targetUer] }

/-- UIKit may ask for the row. -/
def hasRow (self : NewConversationViewController) (row : Nat) : Bool :=
  !self.tableIsHidden && decide (row < self.rows)

def step (u : Unicode) (self : NewConversationViewController) :
    SearchEvent → Option NewConversationViewController
  | .searchBarSearchButtonClicked text => some (self.searchBarSearchButtonClicked u text)
  | .getallUser i result => some (self.getallUser u i result)
  | .cellForRowAt row => if self.hasRow row then self.cellForRowAt row else some self
  | .didSelectRowAt row => if self.hasRow row then self.didSelectRowAt row else some self

/-- The screen after events since it was opened. -/
abbrev run (u : Unicode) (self : NewConversationViewController) (es : List SearchEvent) :
    Option NewConversationViewController :=
  Machine.run (step u) self es

/-- The users that the screen shows. -/
def shown (self : NewConversationViewController) : List UserEntry :=
  if self.tableIsHidden then [] else self.results

end NewConversationViewController

end IChat
