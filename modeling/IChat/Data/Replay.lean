import IChat.Data.KeyTree

/-!
# Replaying writes on a tree

`replay t ws` performs the writes `ws` one after another. Writes of nothing are special: below a
leaf they do nothing, while every other write there replaces the leaf. For writes that write
something, a later write at or above the path of an earlier one hides it (`set_append_set`), and a
list of writes below one path is one write at that path (`replay_below`).
-/

namespace KeyTree

open SortedMap

variable {κ α : Type}

/-- The value of a leaf. -/
def leafValue : KeyTree κ α → Option α
  | .leaf a => some a
  | .node _ => none

@[simp] theorem leafValue_leaf (a : α) : (leaf a : KeyTree κ α).leafValue = some a := rfl

@[simp] theorem leafValue_node (cs : List (κ × KeyTree κ α)) : (node cs).leafValue = none := rfl

variable [LinearOrder κ]

/-- **Extensionality**: well-formed trees with the same children and the same value are equal. -/
theorem ext_child {t t' : KeyTree κ α} (h : t.WF) (h' : t'.WF) (hl : t.leafValue = t'.leafValue)
    (hc : ∀ k, t.child k = t'.child k) : t = t' := by
  cases t with
  | leaf a =>
    cases t' with
    | leaf a' => simpa using hl
    | node cs' => simp at hl
  | node cs =>
    cases t' with
    | leaf a' => simp at hl
    | node cs' => rw [ext_node h h' hc]

/-- An empty child leaves a leaf as it is. -/
theorem leafValue_setChild_eq (t : KeyTree κ α) (k : κ) (c : KeyTree κ α) :
    (t.setChild k c).leafValue = if c.isEmpty then t.leafValue else none := by
  cases t with
  | leaf a =>
    simp only [setChild]
    split <;> rfl
  | node cs => simp [setChild]

theorem leafValue_setChild (t : KeyTree κ α) (k : κ) {c : KeyTree κ α} (hc : c.isEmpty = false) :
    (t.setChild k c).leafValue = none := by simp [leafValue_setChild_eq, hc]

theorem leafValue_set_cons (t : KeyTree κ α) (k : κ) (p : List κ) {n : KeyTree κ α}
    (hn : n.isEmpty = false) : (t.set (k :: p) n).leafValue = none :=
  leafValue_setChild t k (isEmpty_set hn)

/-- A child that is written twice keeps what was written last. -/
theorem setChild_setChild {t : KeyTree κ α} (h : t.WF) (k : κ) {c c' : KeyTree κ α} (hc : c.WF)
    (hc' : c'.WF) (hne : c'.isEmpty = false) :
    (t.setChild k c).setChild k c' = t.setChild k c' := by
  apply ext_child ((h.setChild k hc).setChild k hc') (h.setChild k hc')
  · simp only [leafValue_setChild _ k hne]
  · intro j
    simp only [child_setChild]
    split <;> rfl

/-- **The later write hides the earlier one** when it is at its path or above and writes
something. -/
theorem set_append_set {t v w : KeyTree κ α} (h : t.WF) (hv : v.WF) (hw : w.WF)
    (hne : w.isEmpty = false) (q r : List κ) : (t.set (q ++ r) v).set q w = t.set q w := by
  induction q generalizing t with
  | nil => rfl
  | cons k q ih =>
    simp only [List.cons_append, set, child_setChild_self]
    rw [setChild_setChild h k ((h.child k).set _ hv) (((h.child k).set _ hv).set q hw)
      (isEmpty_set hne), ih (h.child k)]

theorem set_append (t n : KeyTree κ α) (p r : List κ) :
    t.set (p ++ r) n = t.set p ((t.get p).set r n) := by
  induction p generalizing t with
  | nil => rfl
  | cons k p ih => simp only [List.cons_append, set, get_cons, ih]

/-- A write below an earlier one goes into what was written. -/
theorem set_set_append {t v w : KeyTree κ α} (h : t.WF) (hv : v.WF) (hw : w.WF)
    (hne : w.isEmpty = false) (p r : List κ) :
    (t.set p v).set (p ++ r) w = t.set p (v.set r w) := by
  have hhides := set_append_set h hv (hv.set r hw) (isEmpty_set hne) p []
  rw [List.append_nil] at hhides
  rw [set_append, get_set_self, hhides]

/-! ## Writing and restoring -/

/-- Whether there is a leaf above a path. -/
def belowLeaf (t : KeyTree κ α) : List κ → Bool
  | [] => false
  | k :: p => t.leafValue.isSome || (t.child k).belowLeaf p

/-- A node that gets its old child back is as it was. -/
theorem setChild_setChild_child {t : KeyTree κ α} (h : t.WF) (hl : t.leafValue = none) (k : κ)
    {c : KeyTree κ α} (hc : c.WF) : (t.setChild k c).setChild k (t.child k) = t := by
  apply ext_child ((h.setChild k hc).setChild k (h.child k)) h
  · simp [leafValue_setChild_eq, hl]
  · intro j
    simp only [child_setChild]
    split
    · rename_i hj
      rw [hj]
    · rfl

/-- **Writing and restoring** gives the tree back unless the write was below a leaf, which it
replaced. -/
theorem set_set_get_iff {t v : KeyTree κ α} (h : t.WF) (hv : v.WF) (hne : v.isEmpty = false)
    (p : List κ) : (t.set p v).set p (t.get p) = t ↔ t.belowLeaf p = false := by
  induction p generalizing t with
  | nil => simp [belowLeaf, set]
  | cons k p ih =>
    have hk := h.child k
    simp only [set, get_cons, child_setChild_self, belowLeaf, Bool.or_eq_false_iff,
      Option.isSome_eq_false_iff, Option.isNone_iff_eq_none]
    constructor
    · intro heq
      constructor
      · have hl := congrArg leafValue heq
        rw [leafValue_setChild_eq, leafValue_setChild _ _ (isEmpty_set hne), ite_self] at hl
        exact hl.symm
      · rw [← ih hk]
        have hc := congrArg (child · k) heq
        simpa only [child_setChild_self] using hc
    · rintro ⟨hl, hb⟩
      rw [(ih hk).2 hb]
      exact setChild_setChild_child h hl k (hk.set p hv)

/-! ## Lists of writes -/

/-- The tree after the writes, the first one first. -/
def replay (t : KeyTree κ α) (ws : List (List κ × KeyTree κ α)) : KeyTree κ α :=
  ws.foldl (fun t w => t.set w.1 w.2) t

/-- A write that stores something well-formed. -/
def Stores (w : List κ × KeyTree κ α) : Prop := w.2.WF ∧ w.2.isEmpty = false

@[simp] theorem replay_nil (t : KeyTree κ α) : t.replay [] = t := rfl

@[simp] theorem replay_cons (t : KeyTree κ α) (w : List κ × KeyTree κ α)
    (ws : List (List κ × KeyTree κ α)) : t.replay (w :: ws) = (t.set w.1 w.2).replay ws := rfl

theorem replay_append (t : KeyTree κ α) (ws ws' : List (List κ × KeyTree κ α)) :
    t.replay (ws ++ ws') = (t.replay ws).replay ws' := List.foldl_append

theorem WF.replay {t : KeyTree κ α} {ws : List (List κ × KeyTree κ α)} (h : t.WF)
    (hws : ∀ w ∈ ws, w.2.WF) : (t.replay ws).WF := by
  induction ws generalizing t with
  | nil => exact h
  | cons w ws ih => exact ih (h.set _ (hws w (.head _))) fun w' hw' => hws w' (.tail _ hw')

theorem isEmpty_replay {t : KeyTree κ α} {ws : List (List κ × KeyTree κ α)}
    (h : t.isEmpty = false) (hws : ∀ w ∈ ws, Stores w) : (t.replay ws).isEmpty = false := by
  induction ws generalizing t with
  | nil => exact h
  | cons w ws ih =>
    exact ih (isEmpty_set (hws w (.head _)).2) fun w' hw' => hws w' (.tail _ hw')

/-- Writes below a path are one write at the path. -/
theorem replay_below {t : KeyTree κ α} {ws : List (List κ × KeyTree κ α)} (h : t.WF)
    (hws : ∀ w ∈ ws, Stores w) (p : List κ) :
    t.replay (ws.map fun w => (p ++ w.1, w.2)) = t.set p ((t.get p).replay ws) := by
  induction ws generalizing t with
  | nil => exact (set_get h p).symm
  | cons w ws ih =>
    have hw := hws w (.head _)
    have hrest : ∀ w' ∈ ws, Stores w' := fun w' hw' => hws w' (.tail _ hw')
    have hset := (h.get p).set w.1 hw.1
    simp only [List.map_cons, replay_cons]
    rw [ih (h.set _ hw.1) hrest, get_set_append,
      set_append_set h hw.1 (hset.replay fun w' hw' => (hrest w' hw').1)
        (isEmpty_replay (isEmpty_set hw.2) hrest)]

end KeyTree
