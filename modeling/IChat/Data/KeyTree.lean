import IChat.Data.SortedMap

/-!
# Trees addressed by key paths

A `KeyTree` is a leaf or a node whose children are a map from keys to trees; the empty tree is the
node without children. `get` and `set` follow a path of keys. A set tree never stores an empty
child (`WF`), so well-formed trees are canonical and writes at paths of which neither is below the
other (`Apart`) commute as an equation of trees (`set_comm`).
-/

/-- A tree with keys `κ` and leaf values `α`. -/
inductive KeyTree (κ α : Type) where
  | leaf (a : α)
  | node (cs : List (κ × KeyTree κ α))
  deriving Repr

namespace KeyTree

open SortedMap

variable {κ α : Type}

/-- The tree that stores nothing. -/
def empty : KeyTree κ α := .node []

def isEmpty : KeyTree κ α → Bool
  | .leaf _ => false
  | .node cs => cs.isEmpty

@[simp] theorem isEmpty_empty : (empty : KeyTree κ α).isEmpty = true := rfl

@[simp] theorem isEmpty_leaf (a : α) : (leaf a : KeyTree κ α).isEmpty = false := rfl

@[simp] theorem isEmpty_node (cs : List (κ × KeyTree κ α)) : (node cs).isEmpty = cs.isEmpty := rfl

theorem eq_empty {t : KeyTree κ α} (h : t.isEmpty = true) : t = empty := by
  cases t with
  | leaf a => cases h
  | node cs => rw [List.isEmpty_iff.1 h]; rfl

/-- Neither path is a prefix of the other. -/
def Apart : List κ → List κ → Prop
  | a :: p, b :: q => a ≠ b ∨ Apart p q
  | _, _ => False

theorem Apart.symm : ∀ {p q : List κ}, Apart p q → Apart q p
  | _ :: _, _ :: _, .inl h => .inl (Ne.symm h)
  | _ :: _, _ :: _, .inr h => .inr h.symm

theorem apart_singleton {a b : κ} : Apart [a] [b] ↔ a ≠ b := by simp [Apart]

theorem Apart.append {p q : List κ} (h : Apart p q) (r : List κ) : Apart p (q ++ r) := by
  induction p generalizing q with
  | nil => cases h
  | cons a p ih =>
    cases q with
    | nil => cases h
    | cons b q => exact h.imp id fun h => ih h

theorem apart_or_prefix (p q : List κ) : Apart p q ∨ p <+: q ∨ q <+: p := by
  induction p generalizing q with
  | nil => exact .inr (.inl q.nil_prefix)
  | cons a p ih =>
    cases q with
    | nil => exact .inr (.inr (List.nil_prefix))
    | cons b q =>
      by_cases hab : a = b
      · subst hab
        rcases ih q with h | h | h
        · exact .inl (.inr h)
        · exact .inr (.inl (List.cons_prefix_cons.2 ⟨rfl, h⟩))
        · exact .inr (.inr (List.cons_prefix_cons.2 ⟨rfl, h⟩))
      · exact .inl (.inl hab)

theorem not_apart_of_prefix {p q : List κ} (h : p <+: q) : ¬ Apart p q := by
  induction p generalizing q with
  | nil => exact id
  | cons a p ih =>
    cases q with
    | nil => exact id
    | cons b q =>
      obtain ⟨hab, hpq⟩ := List.cons_prefix_cons.1 h
      rintro (hne | ha)
      · exact hne hab
      · exact ih hpq ha

variable [LinearOrder κ]

/-- The child at `k`. -/
def child : KeyTree κ α → κ → KeyTree κ α
  | .leaf _, _ => empty
  | .node cs, k => (find k cs).getD empty

/-- The children with `c` at `k`; an empty child is not stored. -/
def put (k : κ) (c : KeyTree κ α) (cs : List (κ × KeyTree κ α)) : List (κ × KeyTree κ α) :=
  if c.isEmpty then erase k cs else insert k c cs

/-- The tree with `c` as its child at `k`. A leaf keeps its value when `c` is empty. -/
def setChild : KeyTree κ α → κ → KeyTree κ α → KeyTree κ α
  | .leaf a, k, c => if c.isEmpty then .leaf a else .node (put k c [])
  | .node cs, k, c => .node (put k c cs)

/-- The subtree at a path. -/
def get : KeyTree κ α → List κ → KeyTree κ α
  | t, [] => t
  | t, k :: p => (t.child k).get p

/-- The tree with its subtree at a path replaced. -/
def set : KeyTree κ α → List κ → KeyTree κ α → KeyTree κ α
  | _, [], n => n
  | t, k :: p, n => t.setChild k ((t.child k).set p n)

/-- Children are sorted, well-formed and not empty, at every level. -/
inductive WF : KeyTree κ α → Prop
  | leaf (a : α) : WF (.leaf a)
  | node {cs : List (κ × KeyTree κ α)} (sorted : Sorted cs)
      (children : ∀ k c, (k, c) ∈ cs → WF c) (nonempty : ∀ k c, (k, c) ∈ cs → c.isEmpty = false) :
      WF (.node cs)

/-! ## One level -/

@[simp] theorem child_leaf (a : α) (k : κ) : (leaf a : KeyTree κ α).child k = empty := rfl

@[simp] theorem child_empty (k : κ) : (empty : KeyTree κ α).child k = empty := rfl

theorem find_put (k k' : κ) (c : KeyTree κ α) (cs : List (κ × KeyTree κ α)) :
    find k' (put k c cs) =
      if k' = k then (if c.isEmpty then none else some c) else find k' cs := by
  unfold put
  split
  · rw [find_erase]
  · rw [find_insert]

theorem child_node_put (k k' : κ) (c : KeyTree κ α) (cs : List (κ × KeyTree κ α)) :
    (node (put k c cs)).child k' = if k' = k then c else (node cs).child k' := by
  simp only [child, find_put]
  by_cases hk : k' = k
  · cases hc : c.isEmpty
    · simp [hk]
    · simp [hk, eq_empty hc]
  · simp [hk]

theorem child_setChild (t : KeyTree κ α) (k k' : κ) (c : KeyTree κ α) :
    (t.setChild k c).child k' = if k' = k then c else t.child k' := by
  cases t with
  | leaf a =>
    cases hc : c.isEmpty
    · simp only [setChild, hc, Bool.false_eq_true, ↓reduceIte, child_node_put]; rfl
    · simp [setChild, eq_empty hc]
  | node cs => exact child_node_put k k' c cs

@[simp] theorem child_setChild_self (t : KeyTree κ α) (k : κ) (c : KeyTree κ α) :
    (t.setChild k c).child k = c := by simp [child_setChild]

/-! ## Paths -/

@[simp] theorem get_nil (t : KeyTree κ α) : t.get [] = t := rfl

theorem get_cons (t : KeyTree κ α) (k : κ) (p : List κ) : t.get (k :: p) = (t.child k).get p := rfl

@[simp] theorem get_empty (p : List κ) : (empty : KeyTree κ α).get p = empty := by
  induction p with
  | nil => rfl
  | cons k p ih => exact ih

theorem get_append (t : KeyTree κ α) (p q : List κ) : t.get (p ++ q) = (t.get p).get q := by
  induction p generalizing t with
  | nil => rfl
  | cons k p ih => exact ih (t.child k)

/-- **Read after write**. -/
@[simp] theorem get_set_self (t n : KeyTree κ α) (p : List κ) : (t.set p n).get p = n := by
  induction p generalizing t with
  | nil => rfl
  | cons k p ih => simp only [set, get_cons, child_setChild_self, ih]

/-- A write below a path writes into the subtree there. -/
theorem get_set_append (t n : KeyTree κ α) (p q : List κ) :
    (t.set (p ++ q) n).get p = (t.get p).set q n := by
  induction p generalizing t with
  | nil => rfl
  | cons k p ih => simp only [List.cons_append, set, get_cons, child_setChild_self, ih]

/-- **Frame**: a write leaves the subtrees apart from its path unchanged. -/
theorem get_set_apart {p q : List κ} (h : Apart p q) (t n : KeyTree κ α) :
    (t.set p n).get q = t.get q := by
  induction p generalizing t q with
  | nil => cases h
  | cons a p ih =>
    cases q with
    | nil => cases h
    | cons b q =>
      simp only [set, get_cons, child_setChild]
      split
      · rename_i hb
        subst hb
        exact ih (h.resolve_left fun h => h rfl) _
      · rfl

/-! ## Well-formed trees -/

theorem WF.empty : WF (KeyTree.empty : KeyTree κ α) := .node .nil nofun nofun

theorem WF.child {t : KeyTree κ α} (h : t.WF) (k : κ) : (t.child k).WF := by
  cases h with
  | leaf a => exact .empty
  | @node cs hs hc hn =>
    simp only [KeyTree.child]
    cases hf : find k cs with
    | none => exact .empty
    | some c => exact hc k c (mem_of_find hf)

theorem WF.put {cs : List (κ × KeyTree κ α)} (h : (KeyTree.node cs).WF) (k : κ) {c : KeyTree κ α}
    (hc : c.WF) : (KeyTree.node (KeyTree.put k c cs)).WF := by
  cases h with
  | node hs hw hn =>
    unfold KeyTree.put
    split
    · exact .node (hs.erase k) (fun k' c' hm => hw k' c' (mem_erase hm))
        (fun k' c' hm => hn k' c' (mem_erase hm))
    · rename_i he
      refine .node (hs.insert k c) (fun k' c' hm => ?_) (fun k' c' hm => ?_)
      · rcases mem_insert hm with h | hm
        · cases h; exact hc
        · exact hw k' c' hm
      · rcases mem_insert hm with h | hm
        · cases h; simpa using he
        · exact hn k' c' hm

theorem WF.setChild {t : KeyTree κ α} (h : t.WF) (k : κ) {c : KeyTree κ α} (hc : c.WF) :
    (t.setChild k c).WF := by
  cases t with
  | leaf a =>
    simp only [KeyTree.setChild]
    split
    · exact h
    · exact WF.empty.put k hc
  | node cs => exact h.put k hc

theorem WF.get {t : KeyTree κ α} (h : t.WF) (p : List κ) : (t.get p).WF := by
  induction p generalizing t with
  | nil => exact h
  | cons k p ih => exact ih (h.child k)

theorem WF.set {t n : KeyTree κ α} (h : t.WF) (p : List κ) (hn : n.WF) : (t.set p n).WF := by
  induction p generalizing t with
  | nil => exact hn
  | cons k p ih => exact h.setChild k (ih (h.child k))

/-- Well-formed nodes with the same children are equal. -/
theorem ext_node {cs cs' : List (κ × KeyTree κ α)} (h : (node cs).WF) (h' : (node cs').WF)
    (he : ∀ k, (node cs).child k = (node cs').child k) : cs = cs' := by
  cases h with
  | node hs _ hn =>
    cases h' with
    | node hs' _ hn' =>
      refine ext hs hs' fun k => ?_
      have hk := he k
      simp only [KeyTree.child] at hk
      cases hf : find k cs with
      | none =>
        cases hf' : find k cs' with
        | none => rfl
        | some c =>
          have := hn' k c (mem_of_find hf')
          rw [hf, hf'] at hk
          simp only [Option.getD_none, Option.getD_some] at hk
          rw [← hk] at this; cases this
      | some c =>
        cases hf' : find k cs' with
        | none =>
          have := hn k c (mem_of_find hf)
          rw [hf, hf'] at hk
          simp only [Option.getD_none, Option.getD_some] at hk
          rw [hk] at this; cases this
        | some c' => rw [hf, hf'] at hk; simpa using hk

/-! ## Writes that change nothing -/

theorem setChild_child {t : KeyTree κ α} (h : t.WF) (k : κ) : t.setChild k (t.child k) = t := by
  cases t with
  | leaf a => rfl
  | node cs =>
    refine congrArg node (ext_node (h.put k (h.child k)) h fun j => ?_)
    rw [child_node_put]
    split
    · rename_i hj; rw [hj]
    · rfl

theorem set_get {t : KeyTree κ α} (h : t.WF) (p : List κ) : t.set p (t.get p) = t := by
  induction p generalizing t with
  | nil => rfl
  | cons k p ih => rw [set, get_cons, ih (h.child k), setChild_child h]

/-- A write changes nothing exactly when it writes what is there. -/
theorem set_eq_self_iff {t n : KeyTree κ α} {p : List κ} (h : t.WF) :
    t.set p n = t ↔ t.get p = n :=
  ⟨fun he => by rw [← he, get_set_self], fun he => by rw [← he, set_get h]⟩

/-! ## Writes that commute -/

theorem setChild_empty (a : α) (k : κ) {c : KeyTree κ α} (h : c.isEmpty = false) :
    (leaf a).setChild k c = (empty : KeyTree κ α).setChild k c := by
  simp [setChild, h, empty]

/-- A non-empty tree stays non-empty below a path. -/
theorem isEmpty_setChild {t : KeyTree κ α} {k : κ} {c : KeyTree κ α} (h : c.isEmpty = false) :
    (t.setChild k c).isEmpty = false := by
  have hp : ∀ cs : List (κ × KeyTree κ α), (node (put k c cs)).isEmpty = false := fun cs => by
    simp only [isEmpty_node, put, h, Bool.false_eq_true, ↓reduceIte, List.isEmpty_eq_false_iff]
    exact insert_ne_nil k c cs
  cases t with
  | leaf a => simpa [setChild, h] using hp []
  | node cs => exact hp cs

theorem isEmpty_set {t n : KeyTree κ α} {p : List κ} (h : n.isEmpty = false) :
    (t.set p n).isEmpty = false := by
  induction p generalizing t with
  | nil => exact h
  | cons k p ih => exact isEmpty_setChild ih

theorem set_empty_empty {n : KeyTree κ α} {p : List κ} (h : n.isEmpty = true) :
    (empty : KeyTree κ α).set p n = empty := by
  induction p with
  | nil => exact eq_empty h
  | cons k p ih =>
    rw [set, child_empty, ih]
    rfl

/-- A write below a leaf replaces the leaf, or does nothing when it writes nothing. -/
theorem set_leaf (a : α) (k : κ) (p : List κ) (n : KeyTree κ α) :
    (leaf a).set (k :: p) n = if n.isEmpty then leaf a else empty.set (k :: p) n := by
  simp only [set, child_leaf, child_empty]
  split
  · rename_i h; rw [set_empty_empty h]; rfl
  · rename_i h; exact setChild_empty a k (isEmpty_set (by simpa using h))

theorem put_comm {cs : List (κ × KeyTree κ α)} (h : (node cs).WF) {k k' : κ} (hk : k ≠ k')
    {c c' : KeyTree κ α} (hc : c.WF) (hc' : c'.WF) :
    put k' c' (put k c cs) = put k c (put k' c' cs) := by
  refine ext_node ((h.put k hc).put k' hc') ((h.put k' hc').put k hc) fun j => ?_
  simp only [child_node_put]
  by_cases h1 : j = k
  · subst h1; simp [hk]
  · simp [h1]

theorem put_put {cs : List (κ × KeyTree κ α)} (h : (node cs).WF) (k : κ) {c c' : KeyTree κ α}
    (hc : c.WF) (hc' : c'.WF) : put k c' (put k c cs) = put k c' cs := by
  refine ext_node ((h.put k hc).put k hc') (h.put k hc') fun j => ?_
  simp only [child_node_put]
  split <;> rfl

/-- **Writes at paths apart commute**. -/
theorem set_comm {t n m : KeyTree κ α} {p q : List κ} (h : t.WF) (hn : n.WF) (hm : m.WF)
    (hpq : Apart p q) : (t.set p n).set q m = (t.set q m).set p n := by
  induction p generalizing t q with
  | nil => cases hpq
  | cons a p ih =>
    cases q with
    | nil => cases hpq
    | cons b q =>
      -- a leaf behaves like the empty tree, except that it stays when nothing is written
      have hnode : ∀ cs, (node cs : KeyTree κ α).WF →
          ((node cs).set (a :: p) n).set (b :: q) m = ((node cs).set (b :: q) m).set (a :: p) n := by
        intro cs hcs
        have hp := (hcs.child a).set p hn
        have hq := (hcs.child b).set q hm
        by_cases hab : a = b
        · subst hab
          have hap := hpq.resolve_left fun h => h rfl
          simp only [set, setChild, child_node_put, ↓reduceIte]
          rw [put_put hcs a hp (hp.set q hm), put_put hcs a hq (hq.set p hn),
            ih (hcs.child a) hap]
        · simp only [set, setChild, child_node_put, hab, Ne.symm hab, ↓reduceIte]
          rw [put_comm hcs hab hp hq]
      cases t with
      | node cs => exact hnode cs h
      | leaf x =>
        have he := hnode [] WF.empty
        change (empty.set _ n).set _ m = (empty.set _ m).set _ n at he
        cases hn' : n.isEmpty <;> cases hm' : m.isEmpty <;>
          simp only [set_leaf, hn', hm', Bool.false_eq_true, ↓reduceIte]
        · exact he
        · rw [he, set_empty_empty hm']
        · rw [← he, set_empty_empty hn']

/-! ## Leaves after a write -/

/-- A leaf found after a write was there before, apart from the write, or was written. -/
theorem get_set_eq_leaf {t n : KeyTree κ α} {p q : List κ} {a : α} (hn : n.isEmpty = false)
    (h : (t.set p n).get q = leaf a) :
    (t.get q = leaf a ∧ Apart p q) ∨ ∃ r, q = p ++ r ∧ n.get r = leaf a := by
  induction p generalizing t q with
  | nil => exact .inr ⟨q, rfl, h⟩
  | cons k p ih =>
    cases q with
    | nil =>
      -- what is above a write is a node
      have hchild := isEmpty_set (t := t.child k) (p := p) hn
      have hnode : ∀ b, t.setChild k ((t.child k).set p n) ≠ leaf b := fun b => by
        cases t with
        | leaf x =>
          rw [child_leaf] at hchild
          simp only [setChild, child_leaf, hchild, Bool.false_eq_true, ↓reduceIte]
          nofun
        | node cs => nofun
      exact absurd h (hnode a)
    | cons b q =>
      rw [set, get_cons, child_setChild] at h
      split at h
      · rename_i hb
        subst hb
        rcases ih h with ⟨hq, ha⟩ | ⟨r, rfl, hr⟩
        · exact .inl ⟨hq, .inr ha⟩
        · exact .inr ⟨r, rfl, hr⟩
      · rename_i hb
        exact .inl ⟨h, .inl (Ne.symm hb)⟩

/-! ## Equality -/

section
variable {κ α : Type} [DecidableEq κ] [DecidableEq α]

mutual

def beq : KeyTree κ α → KeyTree κ α → Bool
  | .leaf a, .leaf b => a == b
  | .node cs, .node ds => beqChildren cs ds
  | _, _ => false

def beqChildren : List (κ × KeyTree κ α) → List (κ × KeyTree κ α) → Bool
  | [], [] => true
  | (k, c) :: cs, (j, d) :: ds => k == j && beq c d && beqChildren cs ds
  | _, _ => false

end

mutual

theorem beq_iff : ∀ t t' : KeyTree κ α, beq t t' = true ↔ t = t'
  | .leaf a, .leaf b => by simp [beq]
  | .leaf a, .node ds => by simp [beq]
  | .node cs, .leaf b => by simp [beq]
  | .node cs, .node ds => by rw [beq, beqChildren_iff cs ds, node.injEq]

theorem beqChildren_iff : ∀ cs ds : List (κ × KeyTree κ α), beqChildren cs ds = true ↔ cs = ds
  | [], [] => by simp [beqChildren]
  | [], (j, d) :: ds => by simp [beqChildren]
  | (k, c) :: cs, [] => by simp [beqChildren]
  | (k, c) :: cs, (j, d) :: ds => by
    simp only [beqChildren, Bool.and_eq_true, beq_iff_eq, beq_iff c d, beqChildren_iff cs ds,
      List.cons.injEq, Prod.mk.injEq]

end

instance : DecidableEq (KeyTree κ α) := fun t t' => decidable_of_iff _ (beq_iff t t')

end

end KeyTree
