import IChat.Firebase.CompoundWrite

/-!
# Pending writes

The client shows its own writes before the server has answered. A `WriteTree` (`FWriteTree.m`)
holds the writes not yet acknowledged, in the order they were made, and `visibleWrites`, the
compound write they amount to. It computes what a location shows (`calculate…`) from the server
data known there.

`calculateNextNodeAfterPost:`, which only queries with a limit need, is left out. `NSAssert`s are
left out of the definitions; `Firebase.Proof.WriteTree` shows that they hold.
-/

namespace Firebase

open SortedMap FPath CompoundWrite

/-- Data cached at a location (`FCacheNode`); the index of its node is left out. -/
structure CacheNode where
  node : FNode
  isFullyInitialized : Bool
  isFiltered : Bool
  deriving Repr

/-- `hasChild:`. -/
def hasChild (node : FNode) (childKey : String) : Bool := !(node.child childKey).isEmpty

/-- The children of a node, in order; a leaf has none. -/
def childrenOf : FNode → List (String × FNode)
  | .leaf _ => []
  | .node cs => cs

namespace CacheNode

def isCompleteForChild (c : CacheNode) (childKey : String) : Bool :=
  (c.isFullyInitialized && !c.isFiltered) || hasChild c.node childKey

def isCompleteForPath (c : CacheNode) (path : Path) : Bool :=
  match path with
  | [] => c.isFullyInitialized && !c.isFiltered
  | childKey :: _ => c.isCompleteForChild childKey

end CacheNode

/-- What a write does at its path: it replaces the node there, or writes a number of nodes below. -/
inductive Change where
  | overwrite (node : FNode)
  | merge (changedChildren : CompoundWrite)

/-- `FWriteRecord`. -/
structure WriteRecord where
  writeId : Int
  path : Path
  change : Change
  visible : Bool

namespace WriteRecord

/-- `record:containsPath:`: the record writes at the path or above. -/
def containsPath (record : WriteRecord) (path : Path) : Bool :=
  match record.change with
  | .overwrite _ => contains record.path path
  | .merge changedChildren =>
    changedChildren.forEach.any fun (childPath, _) => contains (record.path ++ childPath) path

end WriteRecord

/-- `FWriteTree`. -/
structure WriteTree where
  visibleWrites : CompoundWrite
  allWrites : List WriteRecord
  lastWriteId : Int

namespace WriteTree

def init : WriteTree := ⟨emptyWrite, [], -1⟩

/-- `addOverwriteAtPath:newData:writeId:isVisible:`. -/
def addOverwriteAtPath (t : WriteTree) (path : Path) (newData : FNode) (writeId : Int)
    (visible : Bool) : WriteTree where
  visibleWrites := if visible then addWrite t.visibleWrites newData path else t.visibleWrites
  allWrites := t.allWrites ++ [⟨writeId, path, .overwrite newData, visible⟩]
  lastWriteId := writeId

/-- `addMergeAtPath:changedChildren:writeId:`. -/
def addMergeAtPath (t : WriteTree) (path : Path) (changedChildren : CompoundWrite)
    (writeId : Int) : WriteTree where
  visibleWrites := addCompoundWrite t.visibleWrites changedChildren path
  allWrites := t.allWrites ++ [⟨writeId, path, .merge changedChildren, true⟩]
  lastWriteId := writeId

/-- `writeForId:`. -/
def writeForId (t : WriteTree) (writeId : Int) : Option WriteRecord :=
  t.allWrites.find? fun record => record.writeId == writeId

/-- One record of `layerTreeFromWrites:`. -/
def layerWrite (treeRoot : Path) (compoundWrite : CompoundWrite) (record : WriteRecord) :
    CompoundWrite :=
  let writePath := record.path
  match record.change with
  | .overwrite overwrite =>
    if contains treeRoot writePath then
      addWrite compoundWrite overwrite (relativePathFrom treeRoot writePath)
    else if contains writePath treeRoot then
      addWrite compoundWrite (overwrite.get (relativePathFrom writePath treeRoot)) []
    else compoundWrite
  | .merge merge =>
    if contains treeRoot writePath then
      addCompoundWrite compoundWrite merge (relativePathFrom treeRoot writePath)
    else if contains writePath treeRoot then
      let relativePath := relativePathFrom writePath treeRoot
      if relativePath.isEmpty then addCompoundWrite compoundWrite merge []
      else match completeNodeAtPath merge relativePath with
        -- the source descends once more from the node it has found at the path
        | some child => addWrite compoundWrite (child.get relativePath.tail) []
        | none => compoundWrite
    else compoundWrite

/-- `layerTreeFromWrites:filter:treeRoot:`: the writes seen from a path, as one compound write. -/
def layerTreeFromWrites (writes : List WriteRecord) (filter : WriteRecord → Bool)
    (treeRoot : Path) : CompoundWrite :=
  (writes.filter filter).foldl (layerWrite treeRoot) emptyWrite

/-- `defaultFilter`: everything, also what is not visible. -/
def defaultFilter (_ : WriteRecord) : Bool := true

/-- `resetTree`. -/
def resetTree (t : WriteTree) : WriteTree where
  visibleWrites := layerTreeFromWrites t.allWrites defaultFilter []
  allWrites := t.allWrites
  lastWriteId := match t.allWrites.getLast? with
    | some lastRecord => lastRecord.writeId
    | none => -1

/-- The `while` loop of `removeWriteId:` over the writes below `i`, the last one first; it ends when
the removed write turns out to be hidden by a later one. -/
def scanWrites (writeToRemove : WriteRecord) (index : Nat) (allWrites : List WriteRecord) :
    Nat → (removedWriteWasVisible removedWriteOverlapsWithOtherWrites : Bool) → Bool × Bool
  | 0, visible, overlaps => (visible, overlaps)
  | i + 1, visible, overlaps =>
    match visible, allWrites[i]? with
    | true, some currentWrite =>
      if currentWrite.visible then
        if i ≥ index && currentWrite.containsPath writeToRemove.path then
          scanWrites writeToRemove index allWrites i false overlaps
        else if contains writeToRemove.path currentWrite.path then
          scanWrites writeToRemove index allWrites i visible true
        else scanWrites writeToRemove index allWrites i visible overlaps
      else scanWrites writeToRemove index allWrites i visible overlaps
    | _, _ => (visible, overlaps)

/-- The removal from `visibleWrites` when no other write is in the way. -/
def removeVisible (visibleWrites : CompoundWrite) (writeToRemove : WriteRecord) : CompoundWrite :=
  match writeToRemove.change with
  | .overwrite _ => removeWriteAtPath visibleWrites writeToRemove.path
  | .merge merge => merge.forEach.foldl (fun visibleWrites (path, _) =>
      removeWriteAtPath visibleWrites (writeToRemove.path ++ path)) visibleWrites

/-- `removeWriteId:`: whether the write may have been visible, and the tree without it; `none` is
the exception for an id that is not pending. -/
def removeWriteId (t : WriteTree) (writeId : Int) : Option (Bool × WriteTree) :=
  match t.allWrites.findIdx? fun record => record.writeId == writeId with
  | none => none
  | some index => t.allWrites[index]?.map fun writeToRemove =>
    let allWrites := t.allWrites.eraseIdx index
    let t := { t with allWrites }
    match scanWrites writeToRemove index allWrites allWrites.length writeToRemove.visible false with
    | (false, _) => (false, t)
    | (true, true) => (true, t.resetTree)
    | (true, false) =>
      (true, { t with visibleWrites := removeVisible t.visibleWrites writeToRemove })

/-- `removeAllWrites`. -/
def removeAllWrites (t : WriteTree) : List WriteRecord × WriteTree :=
  (t.allWrites, { t with visibleWrites := emptyWrite, allWrites := [] })

/-! ## What a location shows -/

/-- `shadowingWriteAtPath:`, also `completeWriteDataAtPath:`. -/
def shadowingWriteAtPath (t : WriteTree) (path : Path) : Option FNode :=
  completeNodeAtPath t.visibleWrites path

/-- The filter of `calculateCompleteEventCacheAtPath:`. -/
def eventCacheFilter (treePath : Path) (writeIdsToExclude : Option (List Int))
    (includeHiddenWrites : Bool) (record : WriteRecord) : Bool :=
  (record.visible || includeHiddenWrites) &&
    (match writeIdsToExclude with
      | none => true
      | some ids => !(ids.contains record.writeId)) &&
    (contains record.path treePath || contains treePath record.path)

/-- `calculateCompleteEventCacheAtPath:completeServerCache:excludeWriteIds:includeHiddenWrites:`. -/
def calculateCompleteEventCacheAtPath (t : WriteTree) (treePath : Path)
    (completeServerCache : Option FNode) (writeIdsToExclude : Option (List Int))
    (includeHiddenWrites : Bool) : Option FNode :=
  if writeIdsToExclude.isNone && !includeHiddenWrites then
    match completeNodeAtPath t.visibleWrites treePath with
    | some shadowingNode => some shadowingNode
    | none =>
      let subMerge := childCompoundWriteAtPath t.visibleWrites treePath
      if subMerge.isEmpty then completeServerCache
      else if completeServerCache.isNone && !(hasCompleteWriteAtPath subMerge []) then none
      else some (applyToNode subMerge (completeServerCache.getD KeyTree.empty))
  else
    let merge := childCompoundWriteAtPath t.visibleWrites treePath
    if !includeHiddenWrites && merge.isEmpty then completeServerCache
    else if !includeHiddenWrites && completeServerCache.isNone &&
        !(hasCompleteWriteAtPath merge []) then none
    else
      let mergeAtPath := layerTreeFromWrites t.allWrites
        (eventCacheFilter treePath writeIdsToExclude includeHiddenWrites) treePath
      some (applyToNode mergeAtPath (completeServerCache.getD KeyTree.empty))

/-- `calculateCompleteEventChildrenAtPath:completeServerChildren:`: the children of which
everything is known. -/
def calculateCompleteEventChildrenAtPath (t : WriteTree) (treePath : Path)
    (completeServerChildren : FNode) : FNode :=
  match completeNodeAtPath t.visibleWrites treePath with
  | some topLevelSet => (childrenOf topLevelSet).foldl (fun completeChildren (key, node) =>
      completeChildren.setChild key node) KeyTree.empty
  | none =>
    let merge := childCompoundWriteAtPath t.visibleWrites treePath
    let layered := (childrenOf completeServerChildren).foldl (fun completeChildren (key, node) =>
      completeChildren.setChild key (applyToNode (childCompoundWriteAtPath merge [key]) node))
      KeyTree.empty
    (completeChildren merge).foldl (fun completeChildren (name, node) =>
      completeChildren.setChild name node) layered

/-- `calculateEventCacheAfterServerOverwriteAtPath:childPath:existingEventSnap:existingServerSnap:`:
what to show at a path after new server data, `none` if nothing changes there. The event snap is
only asserted about. -/
def calculateEventCacheAfterServerOverwriteAtPath (t : WriteTree) (treePath childPath : Path)
    (existingServerSnap : FNode) : Option FNode :=
  let path := treePath ++ childPath
  if hasCompleteWriteAtPath t.visibleWrites path then none
  else
    let childMerge := childCompoundWriteAtPath t.visibleWrites path
    if childMerge.isEmpty then some (existingServerSnap.get childPath)
    else some (applyToNode childMerge (existingServerSnap.get childPath))

/-- `calculateCompleteChildAtPath:childKey:cache:`. -/
def calculateCompleteChildAtPath (t : WriteTree) (treePath : Path) (childKey : String)
    (existingServerCache : CacheNode) : Option FNode :=
  let path := treePath ++ [childKey]
  match completeNodeAtPath t.visibleWrites path with
  | some shadowingNode => some shadowingNode
  | none =>
    if existingServerCache.isCompleteForChild childKey then
      some (applyToNode (childCompoundWriteAtPath t.visibleWrites path)
        (existingServerCache.node.child childKey))
    else none

end WriteTree

end Firebase
