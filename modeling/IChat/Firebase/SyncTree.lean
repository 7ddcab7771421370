import IChat.Data.TreeValues
import IChat.Firebase.View

/-!
# The synchronization tree

A `SyncTree` (`FSyncTree.m`) has a view at every location that is observed, and the pending writes.
It passes every operation to the views it concerns, made relative to their locations, and returns
the events to raise. It keeps the server subscribed to as few locations as will do: one that is
below another is not listened to itself.

All queries are default ones, as the program's are. A sync point (`FSyncPoint`) then has exactly one
view, and is that view here; there are no tags, and nothing is persisted. The registrations are
those of value events, without cancel callbacks. Where the source enumerates a dictionary without
order, children come in order of their keys.
-/

namespace Firebase

open SortedMap FPath CompoundWrite

/-- A value event (`FDataEvent`): the location, the registration it is for, and the value. -/
structure DataEvent where
  path : Path
  eventRegistration : Nat
  snapshot : FNode

/-- A view (`FView`) with the path of its query; registrations are known by their handles. -/
structure View where
  path : Path
  viewCache : ViewCache
  eventRegistrations : List Nat

namespace View

/-- `completeServerCacheFor:`. -/
def completeServerCacheFor (v : View) (path : Path) : Option FNode :=
  v.viewCache.completeServerSnap.map (·.get path)

/-- `generateEventsForChanges:eventCache:registration:` for a value. -/
def generateEvents (v : View) (value : Option FNode) (registrations : List Nat) : List DataEvent :=
  match value with
  | some snapshot => registrations.map fun registration => ⟨v.path, registration, snapshot⟩
  | none => []

/-- `applyOperation:writesCache:serverCache:`. -/
def applyOperation (v : View) (operation : Operation) (writesCache : WriteTreeRef)
    (serverCache : Option FNode) : View × List DataEvent :=
  let (viewCache, value) :=
    ViewProcessor.applyOperationOn v.viewCache operation writesCache serverCache
  ({ v with viewCache }, v.generateEvents value v.eventRegistrations)

/-- `initialEvents:`. -/
def initialEvents (v : View) (registration : Nat) : List DataEvent :=
  v.generateEvents v.viewCache.completeEventSnap [registration]

/-- `removeEventRegistration:cancelError:`. -/
def removeEventRegistration (v : View) (eventRegistration : Option Nat) : View :=
  { v with eventRegistrations := match eventRegistration with
    | some registration => v.eventRegistrations.filter (· != registration)
    | none => [] }

end View

/-- What a sync tree asks of the connection (`FListenProvider`). -/
inductive ListenAction where
  | startListening (path : Path)
  | stopListening (path : Path)
  deriving DecidableEq, Repr

/-- `FSyncTree`. -/
structure SyncTree where
  syncPointTree : ImmutableTree String View
  pendingWriteTree : WriteTree

namespace SyncTree

def init : SyncTree := ⟨ImmutableTree.empty, WriteTree.init⟩

/-! ## Operations -/

/-- The server data of a sync point, when nothing above has given it. -/
def resolveServerCache (syncPoint : Option View) (serverCache : Option FNode) : Option FNode :=
  serverCache.or (syncPoint.bind fun view => view.completeServerCacheFor [])

/-- An operation is passed to a sync point. -/
def applyToSyncPoint (syncPoint : Option View) (operation : Operation) (serverCache : Option FNode)
    (writesCache : WriteTreeRef) : Option View × List DataEvent :=
  match syncPoint with
  | some view =>
    let (view, events) := view.applyOperation operation writesCache serverCache
    (some view, events)
  | none => (none, [])

mutual

/-- `applyOperationDescendantsHelper:syncPointTree:serverCache:writesCache:`. -/
def applyOperationDescendantsHelper (operation : Operation) (serverCache : Option FNode)
    (writesCache : WriteTreeRef) :
    ImmutableTree String View → ImmutableTree String View × List DataEvent
  | .mk syncPoint children =>
    let resolvedServerCache := resolveServerCache syncPoint serverCache
    let (children, events) :=
      applyOperationChildren operation resolvedServerCache writesCache children
    let (syncPoint, moreEvents) :=
      applyToSyncPoint syncPoint operation resolvedServerCache writesCache
    (.mk syncPoint children, events ++ moreEvents)

def applyOperationChildren (operation : Operation) (serverCache : Option FNode)
    (writesCache : WriteTreeRef) :
    List (String × ImmutableTree String View) →
      List (String × ImmutableTree String View) × List DataEvent
  | [] => ([], [])
  | (childKey, childTree) :: children =>
    let (childTree, events) := match operation.operationForChild childKey with
      | some childOperation =>
        applyOperationDescendantsHelper childOperation (serverCache.map (·.child childKey))
          (writesCache.childWriteTreeRef childKey) childTree
      | none => (childTree, [])
    let (children, moreEvents) := applyOperationChildren operation serverCache writesCache children
    ((childKey, childTree) :: children, events ++ moreEvents)

end

/-- `applyOperationHelper:syncPointTree:serverCache:writesCache:`; the path is the operation's. -/
def applyOperationHelper :
    Path → Operation → Option FNode → WriteTreeRef → ImmutableTree String View →
      ImmutableTree String View × List DataEvent
  | [], operation, serverCache, writesCache, syncPointTree =>
    applyOperationDescendantsHelper operation serverCache writesCache syncPointTree
  | childKey :: path, operation, serverCache, writesCache, .mk syncPoint children =>
    let serverCache := resolveServerCache syncPoint serverCache
    let (children, events) :=
      match find childKey children, operation.operationForChild childKey with
      | some childTree, some childOperation =>
        let (childTree, events) := applyOperationHelper path childOperation
          (serverCache.map (·.child childKey)) (writesCache.childWriteTreeRef childKey) childTree
        (insert childKey childTree children, events)
      | _, _ => (children, [])
    let (syncPoint, moreEvents) := applyToSyncPoint syncPoint operation serverCache writesCache
    (.mk syncPoint children, events ++ moreEvents)

/-- `applyOperationToSyncPoints:`. -/
def applyOperationToSyncPoints (t : SyncTree) (operation : Operation) :
    SyncTree × List DataEvent :=
  let (syncPointTree, events) :=
    applyOperationHelper operation.path operation none ⟨[], t.pendingWriteTree⟩ t.syncPointTree
  ({ t with syncPointTree }, events)

/-- `applyUserOverwriteAtPath:newData:writeId:isVisible:`. -/
def applyUserOverwriteAtPath (t : SyncTree) (path : Path) (newData : FNode) (writeId : Int)
    (visible : Bool) : SyncTree × List DataEvent :=
  let pendingWriteTree := t.pendingWriteTree.addOverwriteAtPath path newData writeId visible
  if !visible then ({ t with pendingWriteTree }, [])
  else applyOperationToSyncPoints { t with pendingWriteTree } (.userOverwrite path newData)

/-- `applyUserMergeAtPath:changedChildren:writeId:`. -/
def applyUserMergeAtPath (t : SyncTree) (path : Path) (changedChildren : CompoundWrite)
    (writeId : Int) : SyncTree × List DataEvent :=
  let pendingWriteTree := t.pendingWriteTree.addMergeAtPath path changedChildren writeId
  applyOperationToSyncPoints { t with pendingWriteTree } (.userMerge path changedChildren)

/-- The tree of the paths a write affects, below its own. -/
def affectedTree (write : WriteRecord) : ImmutableTree String Unit :=
  match write.change with
  | .overwrite _ => ImmutableTree.setValue () ImmutableTree.empty []
  | .merge changedChildren => changedChildren.forEach.foldl (fun affectedTree (path, _) =>
      ImmutableTree.setValue () affectedTree path) ImmutableTree.empty

/-- `ackUserWriteWithWriteId:revert:persist:clock:`; `none` is the exception of
`removeWriteId:`. -/
def ackUserWriteWithWriteId (t : SyncTree) (writeId : Int) (revert : Bool) :
    Option (SyncTree × List DataEvent) :=
  match t.pendingWriteTree.writeForId writeId, t.pendingWriteTree.removeWriteId writeId with
  | some write, some (needToReevaluate, pendingWriteTree) =>
    if !needToReevaluate then some ({ t with pendingWriteTree }, [])
    else some (applyOperationToSyncPoints { t with pendingWriteTree }
      (.ackUserWrite write.path (affectedTree write) revert))
  | _, _ => none

/-- `applyServerOverwriteAtPath:newData:`. -/
def applyServerOverwriteAtPath (t : SyncTree) (path : Path) (newData : FNode) :
    SyncTree × List DataEvent :=
  t.applyOperationToSyncPoints (.serverOverwrite path newData)

/-- `applyServerMergeAtPath:changedChildren:`. -/
def applyServerMergeAtPath (t : SyncTree) (path : Path) (changedChildren : CompoundWrite) :
    SyncTree × List DataEvent :=
  t.applyOperationToSyncPoints (.serverMerge path changedChildren)

/-- `applyListenCompleteAtPath:`. -/
def applyListenCompleteAtPath (t : SyncTree) (path : Path) : SyncTree × List DataEvent :=
  t.applyOperationToSyncPoints (.listenComplete path)

/-! ## Registrations -/

/-- `serverCacheForQuery:`: what a view at the path or above has, or else the children that are
complete. -/
def serverCacheForQuery (t : SyncTree) (path : Path) : CacheNode :=
  let completeServerCache := t.syncPointTree.findOnPath (fun pathToSyncPoint view =>
    view.completeServerCacheFor (relativePathFrom pathToSyncPoint path)) [] path
  match completeServerCache with
  | some serverCacheNode => ⟨serverCacheNode, true, false⟩
  | none =>
    let serverCacheNode := (t.syncPointTree.subtreeAtPath path).children.foldl
      (fun serverCacheNode (childKey, childTree) =>
        match childTree.value.bind fun view => view.completeServerCacheFor [] with
        | some completeCache => serverCacheNode.setChild childKey completeCache
        | none => serverCacheNode) KeyTree.empty
    ⟨serverCacheNode, false, false⟩

/-- The caches of a new view (`addEventRegistration:forNonExistingViewForQuery:…`). -/
def initialViewCache (writesCache : WriteTreeRef) (serverCache : CacheNode) : ViewCache :=
  let eventCache := writesCache.calculateCompleteEventCache
    (if serverCache.isFullyInitialized then some serverCache.node else none)
  match eventCache with
  | some eventCache => ⟨⟨eventCache, true, false⟩, serverCache⟩
  | none =>
    ⟨⟨writesCache.calculateCompleteEventChildren serverCache.node, false, false⟩, serverCache⟩

/-- Whether there is a view on the way to a path, or there. -/
def hasViewOnPath (t : SyncTree) (path : Path) : Bool :=
  (t.syncPointTree.findOnPath (fun _ _ => some ()) [] path).isSome

/-- The queries of `setupListenerOnQuery:view:` to stop listening to: the topmost below a path. -/
def queriesToStop (t : SyncTree) (path : Path) : List Path :=
  (ImmutableTree.topmostChildren [] (t.syncPointTree.subtreeAtPath path).children).map (·.2.path)

/-- `collectDistinctViewsForSubTree:`. -/
def collectDistinctViewsForSubTree (subtree : ImmutableTree String View) : List View :=
  (subtree.topmost []).map (·.2)

/-- `addEventRegistration:forQuery:`. -/
def addEventRegistration (t : SyncTree) (eventRegistration : Nat) (path : Path) :
    SyncTree × List DataEvent × List ListenAction :=
  let foundAncestorDefaultView := t.hasViewOnPath path
  match t.syncPointTree.valueAtPath path with
  | some view =>
    let view := { view with eventRegistrations := view.eventRegistrations ++ [eventRegistration] }
    ({ t with syncPointTree := ImmutableTree.setValue view t.syncPointTree path },
      view.initialEvents eventRegistration, [])
  | none =>
    let viewCache := initialViewCache ⟨path, t.pendingWriteTree⟩ (t.serverCacheForQuery path)
    let view : View := ⟨path, viewCache, [eventRegistration]⟩
    let actions :=
      if foundAncestorDefaultView then []
      else .startListening path :: (t.queriesToStop path).map .stopListening
    ({ t with syncPointTree := ImmutableTree.setValue view t.syncPointTree path },
      view.initialEvents eventRegistration, actions)

/-- The last registration of a location is gone, and its view with it. -/
def removeView (t : SyncTree) (path : Path) (cancelled : Bool) : SyncTree × List ListenAction :=
  let t := { t with syncPointTree := t.syncPointTree.removeValueAtPath path }
  let covered := t.hasViewOnPath path
  if covered then (t, [])
  else
    let newViews := collectDistinctViewsForSubTree (t.syncPointTree.subtreeAtPath path)
    let stop := if cancelled then [] else [.stopListening path]
    (t, newViews.map (fun view => .startListening view.path) ++ stop)

/-- `removeEventRegistration:forQuery:cancelError:`: one registration, or all of them; `cancelled`
if the server has ended the listen. -/
def removeEventRegistration (t : SyncTree) (eventRegistration : Option Nat) (path : Path)
    (cancelled : Bool) : SyncTree × List ListenAction :=
  match t.syncPointTree.valueAtPath path with
  | none => (t, [])
  | some view =>
    let view := view.removeEventRegistration eventRegistration
    if view.eventRegistrations.isEmpty then t.removeView path cancelled
    else ({ t with syncPointTree := ImmutableTree.setValue view t.syncPointTree path }, [])

/-! ## What the application would see -/

/-- `calcCompleteEventCacheAtPath:excludeWriteIds:`. -/
def calcCompleteEventCacheAtPath (t : SyncTree) (path : Path) (writeIdsToExclude : List Int) :
    Option FNode :=
  let serverCache := t.syncPointTree.findOnPath (fun pathSoFar view =>
    view.completeServerCacheFor (relativePathFrom pathSoFar path)) [] path
  t.pendingWriteTree.calculateCompleteEventCacheAtPath path serverCache (some writeIdsToExclude)
    true

end SyncTree

end Firebase
