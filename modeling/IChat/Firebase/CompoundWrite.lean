import IChat.Data.ImmutableTree
import IChat.Firebase.Reference

/-!
# Compound writes

A `CompoundWrite` (`FCompoundWrite.m`) is what a number of writes leave behind: a tree of paths
whose values are the nodes written there. A node with a value has no children, since a write below
it goes into the value. Priorities are left out, as in `Firebase.Snapshot`.

`relativePathFrom` raises on paths of which the first does not contain the second. Every call here
has a value found on the path (`findRootMost_append`) or the test `contains` before it.
-/

namespace Firebase

open SortedMap ImmutableTree

namespace FPath

/-- `FPath relativePathFrom:to:` of a path that contains the other. -/
def relativePathFrom (outer inner : Path) : Path := inner.drop outer.length

/-- `FPath contains:`. -/
def contains (path other : Path) : Bool := path.isPrefixOf other

theorem contains_iff {path other : Path} : contains path other = true ↔ path <+: other :=
  List.isPrefixOf_iff_prefix

@[simp] theorem relativePathFrom_append (p q : Path) : relativePathFrom p (p ++ q) = q :=
  List.drop_left

end FPath

open FPath

/-- `FCompoundWrite`. -/
abbrev CompoundWrite := ImmutableTree String FNode

namespace CompoundWrite

def emptyWrite : CompoundWrite := ImmutableTree.empty

/-- `addWrite:atPath:`. -/
def addWrite (c : CompoundWrite) (node : FNode) (path : Path) : CompoundWrite :=
  if path.isEmpty then initWithValue node
  else match c.findRootMostValueAndPath path with
    | some (rootMostPath, value) =>
      setValue (value.set (relativePathFrom rootMostPath path) node) c rootMostPath
    | none => setTree (initWithValue node) c path

/-- `addCompoundWrite:atPath:`. -/
def addCompoundWrite (c compoundWrite : CompoundWrite) (path : Path) : CompoundWrite :=
  compoundWrite.forEach.foldl (fun newWrite (childPath, value) =>
    addWrite newWrite value (path ++ childPath)) c

/-- `removeWriteAtPath:`. -/
def removeWriteAtPath (c : CompoundWrite) (path : Path) : CompoundWrite :=
  if path.isEmpty then emptyWrite else setTree ImmutableTree.empty c path

/-- `completeNodeAtPath:`: the node at a path if the writes overwrite it completely. -/
def completeNodeAtPath (c : CompoundWrite) (path : Path) : Option FNode :=
  match c.findRootMostValueAndPath path with
  | some (rootMostPath, value) => some (value.get (relativePathFrom rootMostPath path))
  | none => none

/-- `hasCompleteWriteAtPath:`. -/
def hasCompleteWriteAtPath (c : CompoundWrite) (path : Path) : Bool :=
  (completeNodeAtPath c path).isSome

/-- `childCompoundWriteAtPath:`. -/
def childCompoundWriteAtPath (c : CompoundWrite) (path : Path) : CompoundWrite :=
  if path.isEmpty then c
  else match completeNodeAtPath c path with
    | some shadowingNode => initWithValue shadowingNode
    | none => c.subtreeAtPath path

/-- `completeChildren`: the children that the writes overwrite completely. -/
def completeChildren (c : CompoundWrite) : List (String × FNode) :=
  match c.value with
  | some (.node cs) => cs
  | some (.leaf _) => []
  | none => c.children.filterMap fun (childKey, childTree) =>
    childTree.value.map fun node => (childKey, node)

mutual

/-- `applySubtreeWrite:atPath:toNode:`. -/
def applySubtreeWrite : CompoundWrite → Path → FNode → FNode
  | .mk (some value) _, relativePath, node => node.set relativePath value
  | .mk none children, relativePath, node => applyChildren children relativePath node

def applyChildren : List (String × CompoundWrite) → Path → FNode → FNode
  | [], _, node => node
  | (childKey, childTree) :: children, relativePath, node =>
    applyChildren children relativePath
      (applySubtreeWrite childTree (relativePath ++ [childKey]) node)

end

/-- `applyToNode:`: the node with all writes applied. -/
def applyToNode (c : CompoundWrite) (node : FNode) : FNode := applySubtreeWrite c [] node

/-- The writes below the root write something. -/
def Writes (c : CompoundWrite) : Prop :=
  c.isEmpty = false ∧ ∀ node, c.value = some node → node.isEmpty = false

/-- A node has a value or children, and stores nothing empty, neither children nor values; only a
write at the root may write nothing. -/
inductive WF : CompoundWrite → Prop
  | root {node : FNode} (h : node.WF) : WF (initWithValue node)
  | children {cs : List (String × CompoundWrite)} (sorted : Sorted cs)
      (wf : ∀ k c, (k, c) ∈ cs → WF c) (writes : ∀ k c, (k, c) ∈ cs → Writes c) : WF (.mk none cs)

end CompoundWrite

end Firebase
