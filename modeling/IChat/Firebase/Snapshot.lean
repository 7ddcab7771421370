import IChat.Data.KeyTree
import IChat.Firebase.Value
import Mathlib.Data.String.Basic

/-!
# Snapshots: values and the tree that stores them

The database stores a tree of string keys (`FNode`): `FLeafNode`, and `FChildrenNode` whose
children are never empty; `FEmptyNode` is the node without children. `nodeFrom`
(`FSnapshotUtilities.m`) turns a value into a tree, an array into children at the keys `0`, `1`, …,
and `NSNull`, `[]` and `{}` into nothing. `val` (`valForExport:NO`) turns a tree back into a value:
into an array when every key is an index and at most about half of the indices are missing (these
read as `NSNull`), else into a dictionary. Priorities and server values, which the program never
uses, are left out.
-/

namespace Firebase

open SortedMap

/-- A stored tree. -/
abbrev FNode := KeyTree String Leaf

/-- The integer a string of decimal digits denotes (`FUtilities intForString:`). -/
def intForString (s : String) : Option Nat :=
  if s ≠ "" ∧ s.toList.all Char.isDigit then some (Nat.ofDigitChars 10 s.toList 0) else none

/-- The array index a key denotes: leading zeroes make it a string. -/
def arrayIndex (key : String) : Option Nat :=
  if key.toList.head? = some '0' ∧ 1 < key.toList.length then none else intForString key

/-- The largest index among the keys, if they are all indices (`allIntegerKeys`, `maxKey`). -/
def maxKey {β : Type} : List (String × β) → Option Nat
  | [] => some 0
  | (k, _) :: l => (arrayIndex k).bind fun i => (maxKey l).map fun m => max i m

/-- The value of a node with the exported children `obj`. -/
def exportChildren (obj : List (String × Value)) : Value :=
  if obj.isEmpty then .null
  else match maxKey obj with
    | some m =>
      if m < 2 * obj.length then
        .arr ((List.range (m + 1)).map fun i => (find (toString i) obj).getD .null)
      else .dict obj
    | none => .dict obj

mutual

/-- The value of a tree (`FNode val`). -/
def val : FNode → Value
  | .leaf a => .leaf a
  | .node cs => exportChildren (valChildren cs)

def valChildren : List (String × FNode) → List (String × Value)
  | [] => []
  | (k, c) :: cs => (k, val c) :: valChildren cs

end

mutual

/-- The tree that stores a value (`FSnapshotUtilities nodeFrom:`). -/
def nodeFrom : Value → FNode
  | .null => KeyTree.empty
  | .leaf a => .leaf a
  | .arr xs => .node (arrChildren 0 xs)
  | .dict kvs => .node (dictChildren kvs)

def arrChildren : Nat → List Value → List (String × FNode)
  | _, [] => []
  | i, x :: xs => KeyTree.put (toString i) (nodeFrom x) (arrChildren (i + 1) xs)

def dictChildren : List (String × Value) → List (String × FNode)
  | [] => []
  | (k, v) :: kvs => KeyTree.put k (nodeFrom v) (dictChildren kvs)

end

/-- What is left of a value after storing it. -/
def stored (v : Value) : Value := val (nodeFrom v)

/-- Storing the value loses nothing. -/
def Canonical (v : Value) : Prop := stored v = v

end Firebase
