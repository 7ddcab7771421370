import IChat.Data.KeyTree

/-!
# Trees with optional values at their nodes

An `ImmutableTree` has at every node an optional value and children by key (`FImmutableTree.m`).
Values are found along a path: `findRootMostValueAndPath` finds the one nearest to the root.
`forEach` lists the values with their paths, those below a node before its own.

`child` and `put` name the two things the operations do to the children of a node; `put` stores no
empty child, as in a `KeyTree`.
-/

open SortedMap

/-- A tree with keys `κ` and optional values `α`. -/
inductive ImmutableTree (κ α : Type) where
  | mk (value : Option α) (children : List (κ × ImmutableTree κ α))
  deriving Repr

namespace ImmutableTree

variable {κ α : Type}

def value : ImmutableTree κ α → Option α
  | mk value _ => value

def children : ImmutableTree κ α → List (κ × ImmutableTree κ α)
  | mk _ children => children

/-- `[FImmutableTree empty]`. -/
def empty : ImmutableTree κ α := mk none []

/-- `initWithValue:`. -/
def initWithValue (value : α) : ImmutableTree κ α := mk (some value) []

def isEmpty : ImmutableTree κ α → Bool
  | mk value children => value.isNone && children.isEmpty

section
variable [LinearOrder κ]

/-- The value nearest to the root on a path, and where it is. -/
def findRootMostValueAndPath : ImmutableTree κ α → List κ → Option (List κ × α)
  | mk (some value) _, _ => some ([], value)
  | mk none _, [] => none
  | mk none children, front :: path =>
    match find front children with
    | some child =>
      (child.findRootMostValueAndPath path).map fun (childPath, value) => (front :: childPath, value)
    | none => none

def subtreeAtPath : ImmutableTree κ α → List κ → ImmutableTree κ α
  | t, [] => t
  | mk _ children, front :: path =>
    match find front children with
    | some childTree => childTree.subtreeAtPath path
    | none => empty

/-- The tree with a value at a path; what is below the path stays. -/
def setValue (newValue : α) : ImmutableTree κ α → List κ → ImmutableTree κ α
  | mk _ children, [] => mk (some newValue) children
  | mk value children, front :: path =>
    let child := (find front children).getD empty
    mk value (insert front (setValue newValue child path) children)

/-- The tree with its subtree at a path replaced. -/
def setTree (newTree : ImmutableTree κ α) : ImmutableTree κ α → List κ → ImmutableTree κ α
  | _, [] => newTree
  | mk value children, front :: path =>
    let child := (find front children).getD empty
    let newChild := setTree newTree child path
    mk value (if newChild.isEmpty then erase front children else insert front newChild children)

end

mutual

/-- The values of a tree whose root is at `pathSoFar`. -/
def forEachPathSoFar (pathSoFar : List κ) : ImmutableTree κ α → List (List κ × α)
  | mk value children =>
    forEachChildren pathSoFar children ++ match value with
      | some value => [(pathSoFar, value)]
      | none => []

def forEachChildren (pathSoFar : List κ) : List (κ × ImmutableTree κ α) → List (List κ × α)
  | [] => []
  | (childKey, childTree) :: children =>
    childTree.forEachPathSoFar (pathSoFar ++ [childKey]) ++ forEachChildren pathSoFar children

end

/-- The values with their paths, depth first. -/
def forEach (t : ImmutableTree κ α) : List (List κ × α) := t.forEachPathSoFar []

/-! ## One level -/

@[simp] theorem value_mk (v : Option α) (cs : List (κ × ImmutableTree κ α)) : (mk v cs).value = v :=
  rfl

@[simp] theorem children_mk (v : Option α) (cs : List (κ × ImmutableTree κ α)) :
    (mk v cs).children = cs := rfl

@[simp] theorem isEmpty_empty : (empty : ImmutableTree κ α).isEmpty = true := rfl

@[simp] theorem isEmpty_initWithValue (a : α) :
    (initWithValue a : ImmutableTree κ α).isEmpty = false :=
  rfl

@[simp] theorem isEmpty_mk (v : Option α) (cs : List (κ × ImmutableTree κ α)) :
    (mk v cs).isEmpty = (v.isNone && cs.isEmpty) := rfl

theorem eq_empty {t : ImmutableTree κ α} (h : t.isEmpty = true) : t = empty := by
  obtain ⟨v, cs⟩ := t
  simp only [isEmpty_mk, Bool.and_eq_true, Option.isNone_iff_eq_none, List.isEmpty_iff] at h
  rw [h.1, h.2]
  rfl

/-! ## Listing -/

theorem forEachPathSoFar_mk (p : List κ) (v : Option α) (cs : List (κ × ImmutableTree κ α)) :
    (mk v cs).forEachPathSoFar p = forEachChildren p cs ++ v.toList.map fun a => (p, a) := by
  cases v <;> rfl

mutual

/-- The listing of a tree that is not at the root. -/
theorem forEachPathSoFar_eq (pathSoFar p : List κ) :
    ∀ t : ImmutableTree κ α, t.forEachPathSoFar (p ++ pathSoFar) =
      (t.forEachPathSoFar pathSoFar).map fun x => (p ++ x.1, x.2)
  | mk v cs => by
    rw [forEachPathSoFar_mk, forEachPathSoFar_mk, forEachChildren_eq pathSoFar p cs, List.map_append]
    cases v <;> rfl

theorem forEachChildren_eq (pathSoFar p : List κ) :
    ∀ cs : List (κ × ImmutableTree κ α), forEachChildren (p ++ pathSoFar) cs =
      (forEachChildren pathSoFar cs).map fun x => (p ++ x.1, x.2)
  | [] => rfl
  | (k, c) :: cs => by
    rw [forEachChildren, forEachChildren, forEachChildren_eq pathSoFar p cs, List.map_append,
      List.append_assoc, forEachPathSoFar_eq (pathSoFar ++ [k]) p c]

end

theorem forEachPathSoFar_append (p : List κ) (t : ImmutableTree κ α) :
    t.forEachPathSoFar p = t.forEach.map fun x => (p ++ x.1, x.2) := by
  have h := forEachPathSoFar_eq [] p t
  rwa [List.append_nil] at h

@[simp] theorem forEach_initWithValue (a : α) :
    (initWithValue a : ImmutableTree κ α).forEach = [([], a)] := rfl

theorem mem_forEachChildren {p : List κ} {cs : List (κ × ImmutableTree κ α)} {x : List κ × α} :
    x ∈ forEachChildren p cs ↔ ∃ k c, (k, c) ∈ cs ∧ x ∈ c.forEachPathSoFar (p ++ [k]) := by
  induction cs with
  | nil => simp [forEachChildren]
  | cons y cs ih =>
    obtain ⟨k, c⟩ := y
    simp only [forEachChildren, List.mem_append, List.mem_cons, ih]
    constructor
    · intro h
      rcases h with h | ⟨k', c', hm, hx⟩
      · exact ⟨k, c, .inl rfl, h⟩
      · exact ⟨k', c', .inr hm, hx⟩
    · intro h
      obtain ⟨k', c', hm | hm, hx⟩ := h
      · cases hm; exact .inl hx
      · exact .inr ⟨k', c', hm, hx⟩

/-! ## A property of all values -/

/-- Every value has a property. -/
inductive All (P : α → Prop) : ImmutableTree κ α → Prop
  | mk {v : Option α} {cs : List (κ × ImmutableTree κ α)} (value : ∀ a ∈ v, P a)
      (children : ∀ k c, (k, c) ∈ cs → All P c) : All P (.mk v cs)

namespace All

variable {P : α → Prop} {t : ImmutableTree κ α}

theorem empty : All P (ImmutableTree.empty : ImmutableTree κ α) := .mk nofun nofun

theorem initWithValue {a : α} (h : P a) : All P (initWithValue a : ImmutableTree κ α) :=
  .mk (fun b hb => by cases hb; exact h) nofun

theorem of_value (h : All P t) {a : α} (ha : t.value = some a) : P a := by
  cases h with
  | mk hv hc => exact hv a ha

theorem of_children (h : All P t) {x : κ × ImmutableTree κ α} (hx : x ∈ t.children) :
    All P x.2 := by
  cases h with
  | mk hv hc => exact hc x.1 x.2 hx

theorem forEachPathSoFar (h : All P t) (p : List κ) : ∀ x ∈ t.forEachPathSoFar p, P x.2 := by
  induction h generalizing p with
  | @mk v cs hv hc ih =>
    intro x hx
    rw [forEachPathSoFar_mk, List.mem_append] at hx
    rcases hx with hx | hx
    · obtain ⟨k, c, hm, hx⟩ := mem_forEachChildren.1 hx
      exact ih k c hm _ x hx
    · obtain ⟨a, ha, rfl⟩ := List.mem_map.1 hx
      exact hv a (by simpa using ha)

end All

variable [LinearOrder κ]

/-- The child at `k`. -/
def child (t : ImmutableTree κ α) (k : κ) : ImmutableTree κ α := (find k t.children).getD empty

/-- The children with `c` at `k`; an empty child is not stored. -/
def put (k : κ) (c : ImmutableTree κ α) (cs : List (κ × ImmutableTree κ α)) :
    List (κ × ImmutableTree κ α) :=
  if c.isEmpty then erase k cs else insert k c cs

@[simp] theorem child_empty (k : κ) : (empty : ImmutableTree κ α).child k = empty := rfl

@[simp] theorem child_initWithValue (a : α) (k : κ) :
    (initWithValue a : ImmutableTree κ α).child k = empty := rfl

theorem child_mk (v : Option α) (cs : List (κ × ImmutableTree κ α)) (k : κ) :
    (mk v cs).child k = (find k cs).getD empty := rfl

theorem find_put (k k' : κ) (c : ImmutableTree κ α) (cs : List (κ × ImmutableTree κ α)) :
    find k' (put k c cs) = if k' = k then (if c.isEmpty then none else some c) else find k' cs := by
  unfold put
  split
  · rw [find_erase]
  · rw [find_insert]

theorem child_put (v : Option α) (k k' : κ) (c : ImmutableTree κ α)
    (cs : List (κ × ImmutableTree κ α)) :
    (mk v (put k c cs)).child k' = if k' = k then c else (mk v cs).child k' := by
  simp only [child_mk, find_put]
  by_cases hk : k' = k
  · cases hc : c.isEmpty
    · simp [hk]
    · simp [hk, eq_empty hc]
  · simp [hk]

theorem sorted_put {cs : List (κ × ImmutableTree κ α)} (h : Sorted cs) (k : κ)
    (c : ImmutableTree κ α) : Sorted (put k c cs) := by
  unfold put
  split
  · exact h.erase k
  · exact h.insert k c

theorem mem_put {k : κ} {c : ImmutableTree κ α} {cs : List (κ × ImmutableTree κ α)}
    {x : κ × ImmutableTree κ α} (h : x ∈ put k c cs) : x = (k, c) ∧ c.isEmpty = false ∨ x ∈ cs := by
  unfold put at h
  split at h
  · exact .inr (mem_erase h)
  · rename_i hc
    exact (mem_insert h).imp (fun hx => ⟨hx, by simpa using hc⟩) id

theorem put_ne_nil {k : κ} {c : ImmutableTree κ α} (hc : c.isEmpty = false)
    (cs : List (κ × ImmutableTree κ α)) : put k c cs ≠ [] := by
  simp only [put, hc, Bool.false_eq_true, ↓reduceIte]
  exact insert_ne_nil k c cs

theorem put_put {cs : List (κ × ImmutableTree κ α)} (h : Sorted cs) (k : κ)
    (c c' : ImmutableTree κ α) : put k c' (put k c cs) = put k c' cs := by
  apply ext (sorted_put (sorted_put h k c) k c') (sorted_put h k c')
  intro j
  simp only [find_put]
  split <;> rfl

theorem put_comm {cs : List (κ × ImmutableTree κ α)} (h : Sorted cs) {k k' : κ} (hk : k ≠ k')
    (c c' : ImmutableTree κ α) : put k' c' (put k c cs) = put k c (put k' c' cs) := by
  apply ext (sorted_put (sorted_put h k c) k' c') (sorted_put (sorted_put h k' c') k c)
  intro j
  simp only [find_put]
  by_cases hj : j = k
  · simp [hj, hk]
  · simp [hj]

/-- Storing the child that is there changes nothing. -/
theorem put_child {v : Option α} {cs : List (κ × ImmutableTree κ α)} (h : Sorted cs)
    (hne : ∀ k c, (k, c) ∈ cs → c.isEmpty = false) (k : κ) : put k ((mk v cs).child k) cs = cs := by
  apply ext (sorted_put h k _) h
  intro j
  rw [find_put]
  split
  · rename_i hj
    subst hj
    rw [child_mk]
    cases hf : find j cs with
    | none => rfl
    | some c => simp [hne j c (mem_of_find hf)]
  · rfl

/-! ## Paths -/

@[simp] theorem subtreeAtPath_nil (t : ImmutableTree κ α) : t.subtreeAtPath [] = t := by
  cases t; rfl

theorem subtreeAtPath_empty (p : List κ) : (empty : ImmutableTree κ α).subtreeAtPath p = empty := by
  cases p <;> rfl

theorem subtreeAtPath_cons (t : ImmutableTree κ α) (k : κ) (p : List κ) :
    t.subtreeAtPath (k :: p) = (t.child k).subtreeAtPath p := by
  obtain ⟨v, cs⟩ := t
  simp only [subtreeAtPath, child_mk]
  cases find k cs with
  | none => exact (subtreeAtPath_empty p).symm
  | some c => rfl

theorem setTree_cons (n t : ImmutableTree κ α) (k : κ) (p : List κ) :
    setTree n t (k :: p) = mk t.value (put k (setTree n (t.child k) p) t.children) := by
  cases t; rfl

@[simp] theorem findRootMost_initWithValue (a : α) (p : List κ) :
    (initWithValue a : ImmutableTree κ α).findRootMostValueAndPath p = some ([], a) := by
  cases p <;> rfl

@[simp] theorem findRootMost_empty (p : List κ) :
    (empty : ImmutableTree κ α).findRootMostValueAndPath p = none := by
  cases p <;> rfl

theorem findRootMost_cons (cs : List (κ × ImmutableTree κ α)) (k : κ) (p : List κ) :
    (mk none cs).findRootMostValueAndPath (k :: p) =
      (((mk none cs).child k).findRootMostValueAndPath p).map fun x => (k :: x.1, x.2) := by
  simp only [findRootMostValueAndPath, child_mk]
  cases find k cs with
  | none => simp
  | some c => rfl

/-- The value found is on the path. -/
theorem findRootMost_append {t : ImmutableTree κ α} {p q : List κ} {a : α}
    (h : t.findRootMostValueAndPath p = some (q, a)) : ∃ r, p = q ++ r := by
  induction p generalizing t q with
  | nil =>
    obtain ⟨v, cs⟩ := t
    cases v with
    | none => cases h
    | some v => cases h; exact ⟨[], rfl⟩
  | cons k p ih =>
    obtain ⟨v, cs⟩ := t
    cases v with
    | some v => cases h; exact ⟨k :: p, rfl⟩
    | none =>
      rw [findRootMost_cons] at h
      obtain ⟨⟨q', a'⟩, hq, he⟩ := Option.map_eq_some_iff.1 h
      cases he
      obtain ⟨r, rfl⟩ := ih hq
      exact ⟨r, rfl⟩

namespace All

variable {P : α → Prop} {t : ImmutableTree κ α}

theorem of_child (h : All P t) (k : κ) : All P (t.child k) := by
  cases h with
  | @mk v cs hv hc =>
    rw [child_mk]
    cases hf : find k cs with
    | none => exact .empty
    | some c => exact hc k c (mem_of_find hf)

theorem subtreeAtPath (h : All P t) (p : List κ) : All P (t.subtreeAtPath p) := by
  induction p generalizing t with
  | nil => rwa [subtreeAtPath_nil]
  | cons k p ih => rw [subtreeAtPath_cons]; exact ih (h.of_child k)

theorem findRootMost (h : All P t) {p q : List κ} {a : α}
    (hf : t.findRootMostValueAndPath p = some (q, a)) : P a := by
  induction p generalizing t q with
  | nil =>
    obtain ⟨v, cs⟩ := t
    cases v with
    | none => cases hf
    | some v => cases hf; exact h.of_value rfl
  | cons k p ih =>
    obtain ⟨v, cs⟩ := t
    cases v with
    | some v => cases hf; exact h.of_value rfl
    | none =>
      rw [findRootMost_cons] at hf
      obtain ⟨⟨q', a'⟩, hq, he⟩ := Option.map_eq_some_iff.1 hf
      cases he
      exact ih (h.of_child k) hq

theorem setValue (h : All P t) {a : α} (ha : P a) (p : List κ) : All P (setValue a t p) := by
  induction p generalizing t with
  | nil =>
    cases h with
    | mk hv hc => exact .mk (fun b hb => by cases hb; exact ha) hc
  | cons k p ih =>
    cases h with
    | @mk v cs hv hc =>
      refine .mk hv fun j c hm => ?_
      rcases mem_insert hm with hx | hm
      · cases hx
        exact ih ((All.mk hv hc).of_child k)
      · exact hc j c hm

theorem setTree (h : All P t) {n : ImmutableTree κ α} (hn : All P n) (p : List κ) :
    All P (setTree n t p) := by
  induction p generalizing t with
  | nil => cases t; exact hn
  | cons k p ih =>
    cases h with
    | @mk v cs hv hc =>
      rw [setTree_cons]
      refine .mk hv fun j c hm => ?_
      rcases mem_put hm with ⟨hx, -⟩ | hm
      · cases hx
        exact ih ((All.mk hv hc).of_child k)
      · exact hc j c hm

end All

end ImmutableTree
