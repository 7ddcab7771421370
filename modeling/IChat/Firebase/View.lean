import IChat.Data.Replay
import IChat.Firebase.WriteTree

/-!
# Views

A view keeps two caches of a location: what the server has sent (`cachedServerSnap`) and what the
application is shown (`cachedEventSnap`), which is the former with the pending writes applied. The
view processor (`FViewProcessor.m`) updates the second from the first, child by child where it can,
and notes the children that changed; a value event is raised when one did, when the cache has become
complete, or when a leaf or an empty node has replaced something else.

The views modelled are those of default queries, which the program uses throughout: their filter is
`FIndexedFilter`, which keeps every child. Priorities, limits and the order of children are left
out. So is the exception for an illegal combination of changes: the log of changes is kept as it is.
-/

namespace Firebase

open SortedMap FPath CompoundWrite

/-- `FViewCache`. -/
structure ViewCache where
  cachedEventSnap : CacheNode
  cachedServerSnap : CacheNode

namespace ViewCache

def updateEventSnap (v : ViewCache) (eventSnap : FNode) (isComplete isFiltered : Bool) :
    ViewCache :=
  { v with cachedEventSnap := ⟨eventSnap, isComplete, isFiltered⟩ }

def updateServerSnap (v : ViewCache) (serverSnap : FNode) (isComplete isFiltered : Bool) :
    ViewCache :=
  { v with cachedServerSnap := ⟨serverSnap, isComplete, isFiltered⟩ }

def completeEventSnap (v : ViewCache) : Option FNode :=
  if v.cachedEventSnap.isFullyInitialized then some v.cachedEventSnap.node else none

def completeServerSnap (v : ViewCache) : Option FNode :=
  if v.cachedServerSnap.isFullyInitialized then some v.cachedServerSnap.node else none

end ViewCache

/-- `FWriteTreeRef`: the pending writes seen from a path. -/
structure WriteTreeRef where
  path : Path
  writeTree : WriteTree

namespace WriteTreeRef

def calculateCompleteEventCache (w : WriteTreeRef) (completeServerCache : Option FNode) :
    Option FNode :=
  w.writeTree.calculateCompleteEventCacheAtPath w.path completeServerCache none false

def calculateCompleteEventChildren (w : WriteTreeRef) (completeServerChildren : FNode) : FNode :=
  w.writeTree.calculateCompleteEventChildrenAtPath w.path completeServerChildren

def calculateEventCacheAfterServerOverwrite (w : WriteTreeRef) (childPath : Path)
    (existingServerSnap : FNode) : Option FNode :=
  w.writeTree.calculateEventCacheAfterServerOverwriteAtPath w.path childPath existingServerSnap

def shadowingWriteAtPath (w : WriteTreeRef) (path : Path) : Option FNode :=
  w.writeTree.shadowingWriteAtPath (w.path ++ path)

def calculateCompleteChild (w : WriteTreeRef) (childKey : String) (cache : CacheNode) :
    Option FNode :=
  w.writeTree.calculateCompleteChildAtPath w.path childKey cache

def childWriteTreeRef (w : WriteTreeRef) (childKey : String) : WriteTreeRef :=
  ⟨w.path ++ [childKey], w.writeTree⟩

end WriteTreeRef

/-- The kind of change of a child. -/
inductive ChangeType where
  | childAdded
  | childRemoved
  | childChanged
  deriving DecidableEq, Repr

/-- The changes of children noted by an operation (`FChildChangeAccumulator`). -/
abbrev Changes := List (String × ChangeType)

/-! ## The filter -/

namespace IndexedFilter

/-- `updateChildIn:forChildKey:newChild:affectedPath:`. -/
def updateChildIn (node : FNode) (childKey : String) (newChildSnap : FNode)
    (affectedPath : Path) : FNode × Changes :=
  let oldChildSnap := node.child childKey
  if oldChildSnap.get affectedPath = newChildSnap.get affectedPath ∧
      oldChildSnap.isEmpty = newChildSnap.isEmpty then
    (node, [])
  else
    let changes : Changes :=
      if newChildSnap.isEmpty then
        if hasChild node childKey then [(childKey, .childRemoved)] else []
      else if oldChildSnap.isEmpty then [(childKey, .childAdded)]
      else [(childKey, .childChanged)]
    -- a leaf keeps its value when nothing is written below it
    (node.setChild childKey newChildSnap, changes)

/-- `updateFullNode:withNewNode:`. -/
def updateFullNode (oldSnap newSnap : FNode) : FNode × Changes :=
  let removed := (childrenOf oldSnap).filterMap fun (childKey, _) =>
    if hasChild newSnap childKey then none else some (childKey, ChangeType.childRemoved)
  let others := (childrenOf newSnap).filterMap fun (childKey, childNode) =>
    if hasChild oldSnap childKey then
      if oldSnap.child childKey = childNode then none else some (childKey, .childChanged)
    else some (childKey, .childAdded)
  (newSnap, removed ++ others)

end IndexedFilter

/-! ## The processor -/

namespace ViewProcessor

/-- `completeChild:` of `FWriteTreeCompleteChildSource`. -/
def completeChild (writes : WriteTreeRef) (viewCache : ViewCache)
    (optCompleteServerCache : Option FNode) (childKey : String) : Option FNode :=
  let node := viewCache.cachedEventSnap
  if node.isCompleteForChild childKey then some (node.node.child childKey)
  else
    let serverNode := match optCompleteServerCache with
      | some serverCache => ⟨serverCache, true, false⟩
      | none => viewCache.cachedServerSnap
    writes.calculateCompleteChild childKey serverNode

/-- `generateEventCacheAfterServerEvent:path:writesCache:`. -/
def generateEventCacheAfterServerEvent (viewCache : ViewCache) (changePath : Path)
    (writesCache : WriteTreeRef) : ViewCache × Changes :=
  let oldEventSnap := viewCache.cachedEventSnap
  if (writesCache.shadowingWriteAtPath changePath).isSome then (viewCache, [])
  else
    let (newEventCache, changes) : FNode × Changes := match changePath with
      | [] =>
        let nodeWithLocalWrites :=
          if viewCache.cachedServerSnap.isFiltered then
            writesCache.calculateCompleteEventChildren
              (viewCache.completeServerSnap.getD KeyTree.empty)
          else (writesCache.calculateCompleteEventCache viewCache.completeServerSnap).getD
            KeyTree.empty
        IndexedFilter.updateFullNode oldEventSnap.node nodeWithLocalWrites
      | childKey :: childChangePath =>
        let newEventChild :=
          if oldEventSnap.isCompleteForChild childKey then
            match writesCache.calculateEventCacheAfterServerOverwrite changePath
                viewCache.cachedServerSnap.node with
            | some eventChildUpdate =>
              some ((oldEventSnap.node.child childKey).set childChangePath eventChildUpdate)
            | none => some (oldEventSnap.node.child childKey)
          else writesCache.calculateCompleteChild childKey viewCache.cachedServerSnap
        match newEventChild with
        | some newEventChild =>
          IndexedFilter.updateChildIn oldEventSnap.node childKey newEventChild childChangePath
        | none => (oldEventSnap.node, [])
    (viewCache.updateEventSnap newEventCache
      (oldEventSnap.isFullyInitialized || changePath.isEmpty) false, changes)

/-- `applyServerOverwriteTo:`. The view's filter keeps everything, so it makes no difference which
filter is used for the server cache. -/
def applyServerOverwriteTo (oldViewCache : ViewCache) (changePath : Path) (changedSnap : FNode)
    (writesCache : WriteTreeRef) : ViewCache × Changes :=
  let oldServerSnap := oldViewCache.cachedServerSnap
  let update (newServerCache : FNode) :=
    generateEventCacheAfterServerEvent
      (oldViewCache.updateServerSnap newServerCache
        (oldServerSnap.isFullyInitialized || changePath.isEmpty) false) changePath writesCache
  match changePath with
  | [] => update (IndexedFilter.updateFullNode oldServerSnap.node changedSnap).1
  | childKey :: childChangePath =>
    if !oldServerSnap.isCompleteForPath changePath && changePath.length > 1 then (oldViewCache, [])
    else
      let newChildNode := (oldServerSnap.node.child childKey).set childChangePath changedSnap
      update (IndexedFilter.updateChildIn oldServerSnap.node childKey newChildNode
        childChangePath).1

/-- `applyUserOverwriteTo:`, the child with a write at or below it. -/
def overwrittenChild (oldViewCache : ViewCache) (childKey : String) (childChangePath : Path)
    (changedSnap : FNode) (writesCache : WriteTreeRef) (optCompleteCache : Option FNode) : FNode :=
  if childChangePath.isEmpty then changedSnap
  else match completeChild writesCache oldViewCache optCompleteCache childKey with
    | some childNode => childNode.set childChangePath changedSnap
    | none => KeyTree.empty

/-- `applyUserOverwriteTo:`. -/
def applyUserOverwriteTo (oldViewCache : ViewCache) (changePath : Path) (changedSnap : FNode)
    (writesCache : WriteTreeRef) (optCompleteCache : Option FNode) : ViewCache × Changes :=
  let oldEventSnap := oldViewCache.cachedEventSnap
  match changePath with
  | [] =>
    let (newEventCache, changes) := IndexedFilter.updateFullNode oldEventSnap.node changedSnap
    (oldViewCache.updateEventSnap newEventCache true false, changes)
  | childKey :: childChangePath =>
    let oldChild := oldEventSnap.node.child childKey
    let newChild := overwrittenChild oldViewCache childKey childChangePath changedSnap writesCache
      optCompleteCache
    if oldChild = newChild then (oldViewCache, [])
    else
      let (newEventSnap, changes) :=
        IndexedFilter.updateChildIn oldEventSnap.node childKey newChild childChangePath
      (oldViewCache.updateEventSnap newEventSnap oldEventSnap.isFullyInitialized false, changes)

/-- One step more, with the changes so far. -/
def takeStep {α : Type} (step : ViewCache → α → ViewCache × Changes) (cur : ViewCache × Changes)
    (x : α) : ViewCache × Changes :=
  ((step cur.1 x).1, cur.2 ++ (step cur.1 x).2)

/-- A number of steps, one after another, with all their changes. -/
def steps {α : Type} (step : ViewCache → α → ViewCache × Changes) (viewCache : ViewCache)
    (xs : List α) : ViewCache × Changes :=
  xs.foldl (takeStep step) (viewCache, [])

/-- `applyUserMergeTo:`: the writes to children in view first. -/
def applyUserMergeTo (viewCache : ViewCache) (path : Path) (changedChildren : CompoundWrite)
    (writesCache : WriteTreeRef) (serverCache : Option FNode) : ViewCache × Changes :=
  let cacheHasChild (w : Path × FNode) : Bool := match path ++ w.1 with
    | childKey :: _ => viewCache.cachedEventSnap.isCompleteForChild childKey
    | [] => false
  let writes := changedChildren.forEach
  steps (fun curViewCache (relativePath, childNode) =>
      applyUserOverwriteTo curViewCache (path ++ relativePath) childNode writesCache serverCache)
    viewCache (writes.filter cacheHasChild ++ writes.filter fun w => !cacheHasChild w)

/-- `applyServerMergeTo:`: the children that are there first. -/
def applyServerMergeTo (viewCache : ViewCache) (path : Path) (changedChildren : CompoundWrite)
    (writesCache : WriteTreeRef) : ViewCache × Changes :=
  let serverSnap := viewCache.cachedServerSnap
  if serverSnap.node.isEmpty && !serverSnap.isFullyInitialized then (viewCache, [])
  else
    let actualMerge :=
      if path.isEmpty then changedChildren else addCompoundWrite emptyWrite changedChildren path
    let childCompoundWrites := actualMerge.children
    let isUnknownDeepMerge (x : String × CompoundWrite) : Bool :=
      !serverSnap.isCompleteForChild x.1 && x.2.value.isNone
    steps (fun curViewCache (childKey, childMerge) =>
        applyServerOverwriteTo curViewCache [childKey]
          (applyToNode childMerge (serverSnap.node.child childKey)) writesCache)
      viewCache (childCompoundWrites.filter (fun x => hasChild serverSnap.node x.1) ++
        childCompoundWrites.filter fun x => !hasChild serverSnap.node x.1 && !isUnknownDeepMerge x)

/-- `ackUserWriteOn:`: the server data of the paths is shown again, now that no write hides it. -/
def ackUserWriteOn (viewCache : ViewCache) (ackPath : Path) (affectedTree : ImmutableTree String Unit)
    (writesCache : WriteTreeRef) : ViewCache × Changes :=
  if (writesCache.shadowingWriteAtPath ackPath).isSome then (viewCache, [])
  else
    let serverCache := viewCache.cachedServerSnap
    if affectedTree.value.isSome then
      if (ackPath.isEmpty && serverCache.isFullyInitialized) ||
          serverCache.isCompleteForPath ackPath then
        applyServerOverwriteTo viewCache ackPath (serverCache.node.get ackPath) writesCache
      else if ackPath.isEmpty then
        let changedChildren := (childrenOf serverCache.node).foldl
          (fun changedChildren (name, node) => addWrite changedChildren node [name]) emptyWrite
        applyServerMergeTo viewCache ackPath changedChildren writesCache
      else (viewCache, [])
    else
      let changedChildren := affectedTree.forEach.foldl (fun changedChildren (mergePath, _) =>
        if serverCache.isCompleteForPath (ackPath ++ mergePath) then
          addWrite changedChildren (serverCache.node.get (ackPath ++ mergePath)) mergePath
        else changedChildren) emptyWrite
      applyServerMergeTo viewCache ackPath changedChildren writesCache

/-- `revertUserWriteOn:`, the child shown when a write below it is taken back. -/
def revertedChild (viewCache : ViewCache) (childKey : String) (affectedPath : Path)
    (writesCache : WriteTreeRef) : FNode × Changes :=
  let oldEventCache := viewCache.cachedEventSnap.node
  let serverSnap := viewCache.cachedServerSnap
  let newChild := match writesCache.calculateCompleteChild childKey serverSnap with
    | some newChild => some newChild
    | none =>
      if serverSnap.isCompleteForChild childKey then some (oldEventCache.child childKey) else none
  match newChild with
  | some newChild => IndexedFilter.updateChildIn oldEventCache childKey newChild affectedPath
  | none =>
    -- no complete child is known: the one shown, if any, goes away
    if hasChild oldEventCache childKey then
      IndexedFilter.updateChildIn oldEventCache childKey KeyTree.empty affectedPath
    else (oldEventCache, [])

/-- `revertUserWriteOn:`, when nothing is left: the old event cache may have been below a leaf. -/
def restoreLeaf (viewCache : ViewCache) (writesCache : WriteTreeRef) (reverted : FNode × Changes) :
    FNode × Changes :=
  let (newEventCache, changes) := reverted
  if newEventCache.isEmpty && viewCache.cachedServerSnap.isFullyInitialized then
    match writesCache.calculateCompleteEventCache viewCache.completeServerSnap with
    | some (.leaf a) =>
      let (newEventCache, moreChanges) := IndexedFilter.updateFullNode newEventCache (.leaf a)
      (newEventCache, changes ++ moreChanges)
    | _ => (newEventCache, changes)
  else (newEventCache, changes)

/-- `revertUserWriteOn:`. -/
def revertUserWriteOn (viewCache : ViewCache) (path : Path) (writesCache : WriteTreeRef) :
    ViewCache × Changes :=
  if (writesCache.shadowingWriteAtPath path).isSome then (viewCache, [])
  else
    let serverSnap := viewCache.cachedServerSnap
    let (newEventCache, changes) : FNode × Changes := match path with
      | [] =>
        let newNode :=
          if serverSnap.isFullyInitialized then
            (writesCache.calculateCompleteEventCache viewCache.completeServerSnap).getD
              KeyTree.empty
          else writesCache.calculateCompleteEventChildren serverSnap.node
        IndexedFilter.updateFullNode viewCache.cachedEventSnap.node newNode
      | childKey :: affectedPath =>
        restoreLeaf viewCache writesCache
          (revertedChild viewCache childKey affectedPath writesCache)
    (viewCache.updateEventSnap newEventCache
      (serverSnap.isFullyInitialized || (writesCache.shadowingWriteAtPath []).isSome) false, changes)

/-- `listenCompleteOldCache:`. -/
def listenCompleteOldCache (viewCache : ViewCache) (path : Path) (writesCache : WriteTreeRef) :
    ViewCache × Changes :=
  let oldServerNode := viewCache.cachedServerSnap
  generateEventCacheAfterServerEvent
    (viewCache.updateServerSnap oldServerNode.node
      (oldServerNode.isFullyInitialized || path.isEmpty) oldServerNode.isFiltered) path writesCache

end ViewProcessor

/-- What happens to a view (`FOperation`): the application writes or has written, or the server has
sent data. -/
inductive Operation where
  | userOverwrite (path : Path) (snap : FNode)
  | serverOverwrite (path : Path) (snap : FNode)
  | userMerge (path : Path) (children : CompoundWrite)
  | serverMerge (path : Path) (children : CompoundWrite)
  | ackUserWrite (path : Path) (affectedTree : ImmutableTree String Unit) (revert : Bool)
  | listenComplete (path : Path)

namespace Operation

def path : Operation → Path
  | userOverwrite path _ => path
  | serverOverwrite path _ => path
  | userMerge path _ => path
  | serverMerge path _ => path
  | ackUserWrite path _ _ => path
  | listenComplete path => path

/-- `operationForChild:` of a merge at the root. -/
def mergeForChild (children : CompoundWrite) (childKey : String)
    (overwrite : Path → FNode → Operation) (merge : Path → CompoundWrite → Operation) :
    Option Operation :=
  let childTree := childCompoundWriteAtPath children [childKey]
  if childTree.isEmpty then none
  else match childTree.value with
    | some snap => some (overwrite [] snap)
    | none => some (merge [] childTree)

/-- `operationForChild:`. -/
def operationForChild (childKey : String) : Operation → Option Operation
  | userOverwrite [] snap => some (userOverwrite [] (snap.child childKey))
  | userOverwrite (_ :: path) snap => some (userOverwrite path snap)
  | serverOverwrite [] snap => some (serverOverwrite [] (snap.child childKey))
  | serverOverwrite (_ :: path) snap => some (serverOverwrite path snap)
  | userMerge [] children => mergeForChild children childKey userOverwrite userMerge
  | userMerge (_ :: path) children => some (userMerge path children)
  | serverMerge [] children => mergeForChild children childKey serverOverwrite serverMerge
  | serverMerge (_ :: path) children => some (serverMerge path children)
  | ackUserWrite [] affectedTree revert =>
    if affectedTree.value.isSome then some (ackUserWrite [] affectedTree revert)
    else some (ackUserWrite [] (affectedTree.subtreeAtPath [childKey]) revert)
  | ackUserWrite (_ :: path) affectedTree revert => some (ackUserWrite path affectedTree revert)
  | listenComplete [] => some (listenComplete [])
  | listenComplete (_ :: path) => some (listenComplete path)

end Operation

namespace ViewProcessor

/-- `isLeafNode`, or nothing. -/
def isLeafOrEmpty (node : FNode) : Bool := node.leafValue.isSome || node.isEmpty

/-- `maybeAddValueFromOldViewCache:newViewCache:changes:`: the value of the value event to raise. -/
def maybeAddValue (oldViewCache newViewCache : ViewCache) (changes : Changes) : Option FNode :=
  let eventSnap := newViewCache.cachedEventSnap
  if eventSnap.isFullyInitialized &&
      (!changes.isEmpty || !oldViewCache.cachedEventSnap.isFullyInitialized ||
        (isLeafOrEmpty eventSnap.node && oldViewCache.completeEventSnap != some eventSnap.node)) then
    some eventSnap.node
  else none

/-- `applyOperationOn:`: the new caches and the value event. -/
def applyOperationOn (oldViewCache : ViewCache) (operation : Operation) (writesCache : WriteTreeRef)
    (optCompleteCache : Option FNode) : ViewCache × Option FNode :=
  let (newViewCache, changes) := match operation with
    | .userOverwrite path snap =>
      applyUserOverwriteTo oldViewCache path snap writesCache optCompleteCache
    | .serverOverwrite path snap => applyServerOverwriteTo oldViewCache path snap writesCache
    | .userMerge path children =>
      applyUserMergeTo oldViewCache path children writesCache optCompleteCache
    | .serverMerge path children => applyServerMergeTo oldViewCache path children writesCache
    | .ackUserWrite path affectedTree revert =>
      if revert then revertUserWriteOn oldViewCache path writesCache
      else ackUserWriteOn oldViewCache path affectedTree writesCache
    | .listenComplete path => listenCompleteOldCache oldViewCache path writesCache
  (newViewCache, maybeAddValue oldViewCache newViewCache changes)

end ViewProcessor

end Firebase
