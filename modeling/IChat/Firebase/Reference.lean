import IChat.Async.Prog
import IChat.Firebase.Proof.RoundTrip

/-!
# References and the store

`child` is `FIRDatabaseReference child:` on the root reference: it raises on an illegal path string
(`FValidation`) and otherwise splits it at the slashes (`FPath`). The path `.info`, which it also
admits, is left out: no path string of the program starts with a dot. `setValue` also raises on a
string of more than 10 MB in the value, which is left out.

`Database` is what the server holds. Reading a path gives its subtree as a value, writing replaces
the subtree, and both are atomic (the instance of `Async.Mem`).
-/

namespace Firebase

open Async

/-- The keys from the root to a node. -/
abbrev Path := List String

/-- `kInvalidPathCharacters`. -/
def kInvalidPathCharacters : List Char := ['[', ']', '.', '#', '$']

/-- `kInvalidKeyCharacters`. -/
def kInvalidKeyCharacters : List Char := ['[', ']', '.', '#', '$', '/']

/-- `FValidation isValidPathString:`. -/
def isValidPathString (s : String) : Bool :=
  s != "" && s.toList.all fun c => !kInvalidPathCharacters.contains c

/-- `FValidation isValidKey:`. -/
def isValidKey (s : String) : Bool :=
  s != "" && s.toList.all fun c => !kInvalidKeyCharacters.contains c

/-- `FPath pathWithString:`: the pieces between the slashes that are not empty. -/
def pathWithString (s : String) : Path :=
  ((s.toList.splitOn '/').filter fun piece => !piece.isEmpty).map String.ofList

/-- The node at a path string below the root; `none` is the exception for an illegal one. -/
def child (s : String) : Option Path :=
  if isValidPathString s then some (pathWithString s) else none

/-- The data on the server: no node stores an empty child. -/
structure Database where
  root : FNode
  wf : root.WF

namespace Database

/-- A database without data. -/
def empty : Database := ⟨KeyTree.empty, .empty⟩

/-- `snapshot.value` of a read at `p`. -/
def value (db : Database) (p : Path) : Value := val (db.root.get p)

/-- The data after `setValue` at `p`. -/
def setValue (db : Database) (p : Path) (v : Value) : Database :=
  ⟨db.root.set p (nodeFrom v), db.wf.set p (wf_nodeFrom v)⟩

theorem ext {db db' : Database} (h : db.root = db'.root) : db = db' := by
  cases db; cases db'; cases h; rfl

@[simp] theorem value_empty (p : Path) : empty.value p = .null := by
  simp only [value, empty, KeyTree.get_empty]; rfl

/-- Everything read is canonical. -/
theorem canonical_value (db : Database) (p : Path) : Canonical (db.value p) :=
  canonical_val (db.wf.get p)

/-- What is read, written back, is the tree there. -/
theorem nodeFrom_value (db : Database) (p : Path) : nodeFrom (db.value p) = db.root.get p :=
  nodeFrom_val (db.wf.get p)

theorem value_eq_iff {db : Database} {p : Path} {v : Value} (hv : Canonical v) :
    db.value p = v ↔ db.root.get p = nodeFrom v := by
  refine ⟨fun h => by rw [← db.nodeFrom_value p, h], fun h => ?_⟩
  rw [value, h]
  exact hv

theorem value_setValue_self (db : Database) (p : Path) (v : Value) :
    (db.setValue p v).value p = stored v := by
  simp only [value, setValue, KeyTree.get_set_self, stored]

/-- A write below a path, read there. -/
theorem value_setValue_append (db : Database) (p q : Path) (v : Value) :
    (db.setValue (p ++ q) v).value p = val ((nodeFrom (db.value p)).set q (nodeFrom v)) := by
  rw [value, setValue, KeyTree.get_set_append, db.nodeFrom_value]

theorem value_setValue_apart (db : Database) (v : Value) {p q : Path} (h : KeyTree.Apart p q) :
    (db.setValue p v).value q = db.value q := by
  simp only [value, setValue, KeyTree.get_set_apart h]

end Database

instance : Mem Database Path Value where
  get := Database.value
  set := Database.setValue
  norm := stored
  Apart := KeyTree.Apart
  apart_irrefl p := by
    induction p with
    | nil => exact id
    | cons a p ih => rintro (h | h); exacts [h rfl, ih h]
  apart_symm h := h.symm
  get_set_self := Database.value_setValue_self
  get_set_apart db v _ _ h := db.value_setValue_apart v h
  set_comm db v w _ _ h := Database.ext (KeyTree.set_comm db.wf (wf_nodeFrom v) (wf_nodeFrom w) h)

theorem mem_get (db : Database) (p : Path) : Mem.get db p = db.value p := rfl

theorem mem_set (db : Database) (p : Path) (v : Value) : Mem.set db p v = db.setValue p v := rfl

theorem mem_norm (v : Value) : Mem.norm Database v = stored v := rfl

/-! ## Values below a path -/

/-- The field of a dictionary; `nil` when it has none is `.null`. -/
def Value.field (k : String) : Value → Value
  | .dict kvs => (SortedMap.find k kvs).getD .null
  | _ => .null

theorem Value.field_dict (k : String) (kvs : List (String × Value)) :
    (Value.dict kvs).field k = (SortedMap.find k kvs).getD .null := rfl

theorem canonical_field {kvs : List (String × Value)} (h : Canonical (.dict kvs)) (k : String) :
    Canonical ((Value.dict kvs).field k) := by
  rw [Value.field_dict]
  cases hf : SortedMap.find k kvs with
  | none => exact canonical_null
  | some v => exact ((canonical_of_dict h).2 _ (SortedMap.mem_of_find hf)).1

/-- A field of a value written is read at the path of the field. -/
theorem Database.value_setValue_field (db : Database) (p : Path) (kvs : List (String × Value))
    (k : String) :
    (db.setValue p (.dict kvs)).value (p ++ [k]) = stored ((Value.dict kvs).field k) := by
  simp only [Database.value, Database.setValue, KeyTree.get_append, KeyTree.get_set_self, nodeFrom,
    KeyTree.get_cons, KeyTree.get_nil, child_dictChildren, stored, Value.field]

/-- What is read at a path of a field is the field of what is read above it. -/
theorem Database.value_field {db : Database} {p : Path} {kvs : List (String × Value)}
    (h : db.value p = .dict kvs) (k : String) :
    db.value (p ++ [k]) = (Value.dict kvs).field k := by
  have hset : db.root.get (p ++ [k]) = (nodeFrom (db.value p)).get [k] := by
    rw [KeyTree.get_append, db.nodeFrom_value]
  rw [Database.value, hset, h, nodeFrom, KeyTree.get_cons, KeyTree.get_nil, child_dictChildren]
  exact canonical_field (h ▸ db.canonical_value p) k

/-! ## Keys -/

/-- A legal key is not empty, has no slash, and is a legal path string. -/
theorem isValidKey_iff {s : String} :
    isValidKey s = true ↔ s.toList ≠ [] ∧ '/' ∉ s.toList ∧ isValidPathString s = true := by
  have hne : s ≠ "" ↔ s.toList ≠ [] := by
    rw [ne_eq, ne_eq, ← String.toList_inj]
    rfl
  simp only [isValidKey, isValidPathString, kInvalidKeyCharacters, kInvalidPathCharacters,
    Bool.and_eq_true, bne_iff_ne, hne, List.all_eq_true, Bool.not_eq_true',
    List.contains_eq_mem, decide_eq_false_iff_not, List.mem_cons, List.not_mem_nil, or_false,
    not_or]
  constructor
  · rintro ⟨hs, h⟩
    refine ⟨hs, fun hm => (h _ hm).2.2.2.2.2 rfl, hs, fun c hc => ?_⟩
    obtain ⟨h1, h2, h3, h4, h5, -⟩ := h c hc
    exact ⟨h1, h2, h3, h4, h5⟩
  · rintro ⟨hs, hslash, -, h⟩
    refine ⟨hs, fun c hc => ?_⟩
    obtain ⟨h1, h2, h3, h4, h5⟩ := h c hc
    exact ⟨h1, h2, h3, h4, h5, fun hc' => hslash (hc' ▸ hc)⟩

/-- The path of a legal key. -/
theorem child_key {s : String} (h : isValidKey s = true) : child s = some [s] := by
  obtain ⟨hne, hslash, hv⟩ := isValidKey_iff.1 h
  rw [child, if_pos hv, pathWithString, List.splitOn_eq_singleton hslash]
  simp [hne]

/-- The path of a path string without slashes, if it is legal. -/
theorem child_single {s : String} (h : '/' ∉ s.toList) {p : Path} (hp : child s = some p) :
    p = [s] := by
  have hv : isValidPathString s = true := by
    unfold child at hp
    split at hp
    · assumption
    · cases hp
  have hne : s.toList ≠ [] := fun he => by
    have hs : s = "" := String.toList_inj.1 (by simpa using he)
    rw [hs] at hv; cases hv
  have := child_key (isValidKey_iff.2 ⟨hne, h, hv⟩)
  rw [hp] at this
  exact Option.some.inj this

/-- The path of a legal key and a field below it. -/
theorem child_key_field {s t : String} (hs : isValidKey s = true) (ht : isValidKey t = true) :
    child (s ++ "/" ++ t) = some [s, t] := by
  obtain ⟨hs, hslash, hsv⟩ := isValidKey_iff.1 hs
  obtain ⟨ht, htlash, htv⟩ := isValidKey_iff.1 ht
  have hv : isValidPathString (s ++ "/" ++ t) = true := by
    simp only [isValidPathString, Bool.and_eq_true, bne_iff_ne] at hsv htv ⊢
    refine ⟨fun he => hs (by simpa using congrArg String.toList he), ?_⟩
    simp only [String.toList_append, List.all_append, hsv.2, htv.2, Bool.and_true]
    decide
  have hsplit : (s ++ "/" ++ t).toList.splitOn '/' = [s.toList, t.toList] := by
    simp only [String.toList_append, List.append_assoc]
    rw [show "/".toList = ['/'] from rfl, List.singleton_append, List.splitOn_append_cons_self,
      List.splitOn_eq_singleton hslash, List.splitOn_eq_singleton htlash]
    rfl
  rw [child, if_pos hv, pathWithString, hsplit]
  simp [hs, ht]

/-- A path string that does not start with a slash is below the root. -/
theorem pathWithString_ne_nil {s : String} {c : Char} {cs : List Char} (h : s.toList = c :: cs)
    (hc : c ≠ '/') : pathWithString s ≠ [] := by
  obtain ⟨piece, pieces, hsplit⟩ := List.exists_cons_of_ne_nil (List.splitOn_ne_nil '/' cs)
  rw [pathWithString, h, List.splitOn_cons_eq_if_modifyHead, if_neg (by simpa using hc), hsplit,
    List.modifyHead_cons, List.filter_cons_of_pos rfl]
  exact List.cons_ne_nil _ _

/-- Two path strings name nodes of which neither is inside the other. -/
def KeysApart (s t : String) : Prop :=
  ∀ p q, child s = some p → child t = some q → KeyTree.Apart p q

theorem KeysApart.symm {s t : String} (h : KeysApart s t) : KeysApart t s :=
  fun p q hp hq => (h q p hq hp).symm

/-- For keys, this says that they differ. -/
theorem keysApart_iff {s t : String} (hs : child s = some [s]) (ht : child t = some [t]) :
    KeysApart s t ↔ s ≠ t := by
  unfold KeysApart
  rw [hs, ht]
  constructor
  · intro h; exact KeyTree.apart_singleton.1 (h _ _ rfl rfl)
  · rintro h _ _ ⟨⟩ ⟨⟩; exact KeyTree.apart_singleton.2 h

end Firebase
