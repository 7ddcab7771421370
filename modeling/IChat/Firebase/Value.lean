import IChat.Data.SortedMap
import Mathlib.Data.Rat.Defs

/-!
# Foundation values

The values that cross the Realtime Database API: `NSNull`, `NSNumber` and `NSString` leaves,
`NSArray` and `NSDictionary` (a map with its keys in order, `SortedMap`). The Swift casts
`as? String`, `as? [String:Any]` and so on are the functions `asString`, `asDict`, ….
-/

namespace Firebase

/-- A leaf: an `NSNumber` made from a Boolean or from a number, or an `NSString`. -/
inductive Leaf where
  | bool (b : Bool)
  | num (n : Rat)
  | str (s : String)
  deriving DecidableEq, Repr

/-- A Foundation value. -/
inductive Value where
  | null
  | leaf (a : Leaf)
  | arr (xs : List Value)
  | dict (kvs : List (String × Value))
  deriving Repr, Inhabited

namespace Value

/-- A string value. -/
def str (s : String) : Value := .leaf (.str s)

/-- A Boolean value. -/
def bool (b : Bool) : Value := .leaf (.bool b)

/-- `as? String`. -/
def asString : Value → Option String
  | .leaf (.str s) => some s
  | _ => none

/-- `as? Bool`: a Boolean, or a number that is exactly 0 or 1. -/
def asBool : Value → Option Bool
  | .leaf (.bool b) => some b
  | .leaf (.num n) => if n = 0 then some false else if n = 1 then some true else none
  | _ => none

/-- `as? [String:Any]`. -/
def asDict : Value → Option (List (String × Value))
  | .dict kvs => some kvs
  | _ => none

/-- `as? [String:String]`. -/
def asStringDict : Value → Option (List (String × String))
  | .dict kvs => kvs.mapM fun kv => kv.2.asString.map fun s => (kv.1, s)
  | _ => none

/-- `as? [[String:Any]]`: the cast of the whole array fails if one element is no dictionary. -/
def asDictArray : Value → Option (List (List (String × Value)))
  | .arr xs => xs.mapM asDict
  | _ => none

/-- `as? [[String:String]]`. -/
def asStringDictArray : Value → Option (List (List (String × String)))
  | .arr xs => xs.mapM asStringDict
  | _ => none

/-- A dictionary of strings as a value. -/
def ofStringDict (d : List (String × String)) : Value := .dict (d.map fun x => (x.1, str x.2))

/-- An array of dictionaries as a value. -/
def ofDictArray (ds : List (List (String × Value))) : Value := .arr (ds.map .dict)

/-- An array of string dictionaries as a value. -/
def ofStringDictArray (ds : List (List (String × String))) : Value := .arr (ds.map ofStringDict)

def isNull : Value → Bool
  | .null => true
  | _ => false

/-! ## The casts -/

@[simp] theorem asString_str (s : String) : (str s).asString = some s := rfl

@[simp] theorem asBool_bool (b : Bool) : (bool b).asBool = some b := rfl

@[simp] theorem asDict_dict (kvs : List (String × Value)) : (dict kvs).asDict = some kvs := rfl

theorem asString_eq_some {v : Value} {s : String} : v.asString = some s ↔ v = str s := by
  constructor
  · intro h
    unfold asString at h
    split at h
    · cases h; rfl
    · cases h
  · rintro rfl; rfl

theorem asDict_eq_some {v : Value} {kvs : List (String × Value)} :
    v.asDict = some kvs ↔ v = .dict kvs := by
  cases v <;> simp [asDict]

/-- A cast that undoes `g` on single values, undoes it on lists. -/
theorem mapM_eq_some_iff {α β : Type} {f : α → Option β} {g : β → α}
    (hf : ∀ a b, f a = some b ↔ a = g b) {xs : List α} {ys : List β} :
    xs.mapM f = some ys ↔ xs = ys.map g := by
  induction xs generalizing ys with
  | nil => cases ys <;> simp
  | cons x xs ih =>
    rw [List.mapM_cons]
    constructor
    · intro h
      obtain ⟨y, hy, h⟩ := Option.bind_eq_some_iff.1 h
      obtain ⟨ys', hys, h⟩ := Option.bind_eq_some_iff.1 h
      cases h
      rw [List.map_cons, ← (hf x y).1 hy, ← ih.1 hys]
    · intro h
      cases ys with
      | nil => cases h
      | cons y ys =>
        simp only [List.map_cons, List.cons.injEq] at h
        rw [(hf x y).2 h.1, ih.2 h.2]
        rfl

theorem asDictArray_eq_some {v : Value} {ds : List (List (String × Value))} :
    v.asDictArray = some ds ↔ v = ofDictArray ds := by
  cases v <;> simp [asDictArray, ofDictArray, mapM_eq_some_iff fun _ _ => asDict_eq_some]

theorem asStringDict_eq_some {v : Value} {d : List (String × String)} :
    v.asStringDict = some d ↔ v = ofStringDict d := by
  have hf : ∀ (kv : String × Value) (x : String × String),
      (kv.2.asString.map fun s => (kv.1, s)) = some x ↔ kv = (x.1, str x.2) := by
    rintro ⟨k, v⟩ ⟨k', s⟩
    simp only [Option.map_eq_some_iff, asString_eq_some, Prod.mk.injEq]
    constructor
    · rintro ⟨_, rfl, rfl, rfl⟩; exact ⟨rfl, rfl⟩
    · rintro ⟨rfl, rfl⟩; exact ⟨s, rfl, rfl, rfl⟩
  cases v <;> simp [asStringDict, ofStringDict, mapM_eq_some_iff hf]

theorem asStringDictArray_eq_some {v : Value} {ds : List (List (String × String))} :
    v.asStringDictArray = some ds ↔ v = ofStringDictArray ds := by
  cases v <;>
    simp [asStringDictArray, ofStringDictArray, mapM_eq_some_iff fun _ _ => asStringDict_eq_some]

end Value

/-! ## The entries -/

/-- What is stored in a collection: the elements of an array without its holes, the values of a
dictionary, or the one value there. -/
def entries : Value → List Value
  | .null => []
  | .leaf a => [.leaf a]
  | .arr xs => xs.filter fun x => !x.isNull
  | .dict kvs => kvs.map Prod.snd

theorem entries_ofDictArray (ds : List (List (String × Value))) :
    entries (.ofDictArray ds) = ds.map .dict := by
  simp only [Value.ofDictArray, entries, List.filter_eq_self, List.mem_map]
  rintro _ ⟨d, -, rfl⟩; rfl

theorem entries_ofStringDictArray (ds : List (List (String × String))) :
    entries (.ofStringDictArray ds) = ds.map .ofStringDict := by
  simp only [Value.ofStringDictArray, entries, List.filter_eq_self, List.mem_map]
  rintro _ ⟨d, -, rfl⟩; rfl

end Firebase
