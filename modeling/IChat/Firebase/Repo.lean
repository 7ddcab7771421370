import IChat.Events.Machine
import IChat.Firebase.SyncTree

/-!
# The client of the database

A `Repo` (`FRepo.m`) takes the program's writes and registrations and the server's messages, one
after another on its queue, and raises the events its sync tree returns. Of its connection
(`FPersistentConnection.m`) it knows the queries listened to and the puts not yet answered.

The server's messages may come at any time and its answers in any order, so that answers held back
and lost connections need no mention. A step that answers `none` is a failed assertion: a put that
is older than the last, a write that is acknowledged but not pending, or a query that is listened to
twice. Values that the server resolves, transactions, purges and persistence are left out; the
program uses none.
-/

namespace Firebase

open CompoundWrite

/-- `FRepo` and the connection's `listens` and `outstandingPuts`, with the events raised so far. -/
structure Repo where
  serverSyncTree : SyncTree
  writeIdCounter : Int
  listens : List Path
  outstandingPuts : List Int
  raised : List DataEvent

/-- What the queue takes. -/
inductive RepoEvent where
  | set (path : Path) (newData : FNode)
  | update (path : Path) (changedChildren : CompoundWrite)
  | putResponse (writeId : Int) (success : Bool)
  | onDataUpdate (path : Path) (data : FNode)
  | onDataMerge (path : Path) (changedChildren : CompoundWrite)
  | listenResponse (path : Path) (success : Bool)
  | addEventRegistration (eventRegistration : Nat) (path : Path)
  | removeEventRegistration (eventRegistration : Option Nat) (path : Path)

namespace Repo

def init : Repo := ⟨SyncTree.init, 0, [], [], []⟩

/-- `raiseEvents:` after a change of the sync tree. -/
def raise (r : Repo) (x : SyncTree × List DataEvent) : Repo :=
  { r with serverSyncTree := x.1, raised := r.raised ++ x.2 }

/-- `listen:tagId:hash:onComplete:` and `unlisten:tagId:`. -/
def perform (listens : List Path) : ListenAction → Option (List Path)
  | .startListening path => if path ∈ listens then none else some (path :: listens)
  | .stopListening path => some (listens.erase path)

/-- `set:withNode:withCallback:`. -/
def set (r : Repo) (path : Path) (newData : FNode) : Option Repo :=
  let writeId := r.writeIdCounter
  if r.serverSyncTree.pendingWriteTree.lastWriteId < writeId then
    some (raise { r with
      writeIdCounter := writeId + 1
      outstandingPuts := r.outstandingPuts ++ [writeId] }
        (r.serverSyncTree.applyUserOverwriteAtPath path newData writeId true))
  else none

/-- `update:withNodes:withCallback:`. -/
def update (r : Repo) (path : Path) (changedChildren : CompoundWrite) : Option Repo :=
  if changedChildren.isEmpty then some r
  else
    let writeId := r.writeIdCounter
    if r.serverSyncTree.pendingWriteTree.lastWriteId < writeId then
      some (raise { r with
        writeIdCounter := writeId + 1
        outstandingPuts := r.outstandingPuts ++ [writeId] }
          (r.serverSyncTree.applyUserMergeAtPath path changedChildren writeId))
    else none

/-- The callback of `sendPut:` and `ackWrite:rerunTransactionsAtPath:status:`. -/
def putResponse (r : Repo) (writeId : Int) (success : Bool) : Option Repo :=
  if writeId ∈ r.outstandingPuts then
    (r.serverSyncTree.ackUserWriteWithWriteId writeId !success).map
      (raise { r with outstandingPuts := r.outstandingPuts.erase writeId })
  else some r

/-- The callback of `sendListen:`, or `onListenRevoked:`. -/
def listenResponse (r : Repo) (path : Path) (success : Bool) : Option Repo :=
  if path ∈ r.listens then
    if success then some (r.raise (r.serverSyncTree.applyListenCompleteAtPath path))
    else
      let (serverSyncTree, actions) :=
        r.serverSyncTree.removeEventRegistration none path true
      (actions.foldlM perform (r.listens.erase path)).map fun listens =>
        { r with serverSyncTree, listens }
  else some r

/-- `addEventRegistration:forQuery:`. -/
def addEventRegistration (r : Repo) (eventRegistration : Nat) (path : Path) : Option Repo :=
  let (serverSyncTree, events, actions) :=
    r.serverSyncTree.addEventRegistration eventRegistration path
  (actions.foldlM perform r.listens).map fun listens =>
    raise { r with listens } (serverSyncTree, events)

/-- `removeEventRegistration:forQuery:`. -/
def removeEventRegistration (r : Repo) (eventRegistration : Option Nat) (path : Path) :
    Option Repo :=
  let (serverSyncTree, actions) :=
    r.serverSyncTree.removeEventRegistration eventRegistration path false
  (actions.foldlM perform r.listens).map fun listens => { r with serverSyncTree, listens }

def step (r : Repo) : RepoEvent → Option Repo
  | .set path newData => r.set path newData
  | .update path changedChildren => r.update path changedChildren
  | .putResponse writeId success => r.putResponse writeId success
  | .onDataUpdate path data =>
    some (r.raise (r.serverSyncTree.applyServerOverwriteAtPath path data))
  | .onDataMerge path changedChildren =>
    some (r.raise (r.serverSyncTree.applyServerMergeAtPath path changedChildren))
  | .listenResponse path success => r.listenResponse path success
  | .addEventRegistration eventRegistration path => r.addEventRegistration eventRegistration path
  | .removeEventRegistration eventRegistration path =>
    r.removeEventRegistration eventRegistration path

end Repo

end Firebase
