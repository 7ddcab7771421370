import IChat.Data.Replay
import IChat.Firebase.CompoundWrite
import Mathlib.Data.Fintype.EquivFin

/-!
# What compound writes do to a node

* `applyToNode_eq_replay`: applying a compound write performs the writes it lists.
* `applyToNode_addWrite`, `applyToNode_addCompoundWrite`: adding writes to a compound write and
  applying it is applying it and performing the writes.
* `get_applyToNode`: what is seen at a path is the compound write of the path applied to what was
  there.
* `completeNode_eq_some_iff`: the complete node at a path is the one the writes determine.
-/

open SortedMap KeyTree ImmutableTree

namespace Firebase

namespace CompoundWrite

open FPath

/-! ## Well-formed compound writes -/

theorem WF.empty : WF emptyWrite := .children .nil nofun nofun

/-- A node with a value has nothing else. -/
theorem WF.eq_initWithValue {c : CompoundWrite} (h : WF c) {node : FNode}
    (hv : c.value = some node) : c = initWithValue node := by
  cases h with
  | root h => cases hv; rfl
  | children _ _ _ => cases hv

theorem WF.value_wf {c : CompoundWrite} (h : WF c) {node : FNode} (hv : c.value = some node) :
    node.WF := by
  cases h with
  | root h => cases hv; exact h
  | children _ _ _ => cases hv

theorem WF.child {c : CompoundWrite} (h : WF c) (k : String) : WF (c.child k) := by
  cases h with
  | root h => exact .empty
  | @children cs hs hw hn =>
    rw [child_mk]
    cases hf : find k cs with
    | none => exact .empty
    | some c => exact hw k c (mem_of_find hf)

theorem WF.subtreeAtPath {c : CompoundWrite} (h : WF c) (p : Path) : WF (c.subtreeAtPath p) := by
  induction p generalizing c with
  | nil => rwa [subtreeAtPath_nil]
  | cons k p ih => rw [subtreeAtPath_cons]; exact ih (h.child k)

theorem WF.put {cs : List (String × CompoundWrite)} (h : WF (.mk none cs)) (k : String)
    {c : CompoundWrite} (hc : WF c) (hw : c.isEmpty = false → Writes c) :
    WF (.mk none (ImmutableTree.put k c cs)) := by
  cases h with
  | children hs hwf hn =>
    refine .children (sorted_put hs k c) (fun j d hm => ?_) (fun j d hm => ?_)
    · rcases mem_put hm with ⟨he, -⟩ | hm
      · cases he; exact hc
      · exact hwf j d hm
    · rcases mem_put hm with ⟨he, hne⟩ | hm
      · cases he; exact hw hne
      · exact hn j d hm

/-- A well-formed node without value that is not empty writes something. -/
theorem writes_of_value_none {c : CompoundWrite} (hne : c.isEmpty = false) (hv : c.value = none) :
    Writes c := ⟨hne, fun n hn => by rw [hv] at hn; cases hn⟩

/-! ## Adding a write -/

@[simp] theorem addWrite_nil (c : CompoundWrite) (node : FNode) :
    addWrite c node [] = initWithValue node := rfl

/-- A write below a node with a value goes into the value. -/
theorem addWrite_initWithValue (v node : FNode) (p : Path) :
    addWrite (initWithValue v) node p = initWithValue (v.set p node) := by
  cases p with
  | nil => rfl
  | cons k p =>
    simp only [addWrite, List.isEmpty_cons, Bool.false_eq_true, ↓reduceIte,
      findRootMost_initWithValue]
    rfl

/-- The test for the empty path in `addWrite` saves a lookup and changes nothing. -/
theorem addWrite_eq {c : CompoundWrite} (h : WF c) (node : FNode) (p : Path) :
    addWrite c node p = match c.findRootMostValueAndPath p with
      | some (q, value) => setValue (value.set (relativePathFrom q p) node) c q
      | none => setTree (initWithValue node) c p := by
  cases p with
  | cons k p => rfl
  | nil =>
    cases h with
    | root h => rfl
    | children hs hw hwr => rfl

theorem isEmpty_setValue (node : FNode) (c : CompoundWrite) (p : Path) :
    (setValue node c p).isEmpty = false := by
  obtain ⟨v, cs⟩ := c
  cases p with
  | nil => rfl
  | cons k p =>
    simp only [setValue, isEmpty_mk, Bool.and_eq_false_iff]
    exact .inr (List.isEmpty_eq_false_iff.2 (insert_ne_nil _ _ _))

/-- A write below a node without value goes into a child. -/
theorem addWrite_children {cs : List (String × CompoundWrite)} (h : WF (.mk none cs))
    (node : FNode) (k : String) (p : Path) :
    addWrite (.mk none cs) node (k :: p) =
      .mk none (ImmutableTree.put k (addWrite ((ImmutableTree.mk none cs).child k) node p) cs) := by
  rw [addWrite_eq h, addWrite_eq (h.child k), findRootMost_cons]
  cases hf : ((ImmutableTree.mk none cs).child k).findRootMostValueAndPath p with
  | none => simp only [Option.map_none, setTree_cons, value_mk, children_mk]
  | some x =>
    obtain ⟨q, v⟩ := x
    obtain ⟨r, rfl⟩ := findRootMost_append hf
    simp only [Option.map_some, setValue, ← List.cons_append, relativePathFrom_append, ImmutableTree.put,
      isEmpty_setValue, Bool.false_eq_true, ↓reduceIte]
    rfl

/-- A write below the root leaves the root as it is, apart from what it writes. -/
theorem value_addWrite_cons {c : CompoundWrite} (h : WF c) (node : FNode) (k : String) (p : Path) :
    (addWrite c node (k :: p)).value = c.value.map (·.set (k :: p) node) := by
  cases h with
  | root hv => rw [addWrite_initWithValue]; rfl
  | children hs hw hwr => rw [addWrite_children (.children hs hw hwr)]; rfl

/-- What is added is stored, so a write of something leaves a node that writes something. -/
theorem writes_addWrite {c : CompoundWrite} (h : WF c) {node : FNode} (hn : node.isEmpty = false)
    (p : Path) : Writes (addWrite c node p) := by
  cases p with
  | nil => exact ⟨rfl, fun n he => by cases he; exact hn⟩
  | cons k p =>
    cases h with
    | @root v h =>
      rw [addWrite_initWithValue]
      exact ⟨rfl, fun n he => by cases he; exact isEmpty_set hn⟩
    | @children cs hs hw hwr =>
      have hne : ∀ (c : CompoundWrite) (p : Path), WF c → (addWrite c node p).isEmpty = false := by
        intro c p hc
        induction p generalizing c with
        | nil => rfl
        | cons j p ih =>
          cases hc with
          | root _ => rw [addWrite_initWithValue]; rfl
          | children hs hw hwr =>
            have hc := WF.children hs hw hwr
            rw [addWrite_children hc, isEmpty_mk, Bool.and_eq_false_iff]
            exact .inr (List.isEmpty_eq_false_iff.2 (put_ne_nil (ih _ (hc.child j)) _))
      have hc := WF.children hs hw hwr
      exact writes_of_value_none (hne _ _ hc) (by rw [addWrite_children hc]; rfl)

/-- **Adding keeps compound writes well-formed**. -/
theorem WF.addWrite {c : CompoundWrite} (h : WF c) {node : FNode} (hn : node.WF)
    (hne : node.isEmpty = false) (p : Path) : WF (addWrite c node p) := by
  induction p generalizing c with
  | nil => exact .root hn
  | cons k p ih =>
    cases h with
    | root hv => rw [addWrite_initWithValue]; exact .root (hv.set _ hn)
    | children hs hw hwr =>
      have hc := WF.children hs hw hwr
      rw [addWrite_children hc]
      exact hc.put k (ih (hc.child k)) fun _ => writes_addWrite (hc.child k) hne p

/-! ## The writes listed -/

/-- The writes listed store something, those at the root if the root write does. -/
theorem forEach_stores {c : CompoundWrite} (h : WF c)
    (hroot : ∀ node, c.value = some node → node.isEmpty = false) : ∀ w ∈ c.forEach, Stores w := by
  induction h with
  | root hv =>
    intro w hw
    rw [forEach_initWithValue, List.mem_singleton] at hw
    subst hw
    exact ⟨hv, hroot _ rfl⟩
  | @children cs hs hw hwr ih =>
    intro w hm
    rw [forEach, forEachPathSoFar_mk, Option.toList_none, List.map_nil, List.append_nil,
      mem_forEachChildren] at hm
    obtain ⟨k, c, hc, hm⟩ := hm
    rw [forEachPathSoFar_append, List.mem_map] at hm
    obtain ⟨w', hw', rfl⟩ := hm
    exact ih k c hc (hwr k c hc).2 w' hw'

theorem forEach_ne_nil {c : CompoundWrite} (h : WF c) (hne : c.isEmpty = false) :
    c.forEach ≠ [] := by
  induction h with
  | root hv => simp
  | @children cs hs hw hwr ih =>
    cases cs with
    | nil => cases hne
    | cons x cs =>
      obtain ⟨k, c⟩ := x
      have hc := ih k c (.head _) (hwr k c (.head _)).1
      rw [forEach, forEachPathSoFar_mk, forEachChildren, forEachPathSoFar_append]
      simp [hc]

theorem applyChildren_eq_replay {cs : List (String × CompoundWrite)}
    (h : ∀ k c, (k, c) ∈ cs → ∀ p n, applySubtreeWrite c p n = n.replay (c.forEachPathSoFar p))
    (p : Path) (n : FNode) : applyChildren cs p n = n.replay (forEachChildren p cs) := by
  induction cs generalizing n with
  | nil => rfl
  | cons x cs ih =>
    obtain ⟨k, c⟩ := x
    rw [applyChildren, forEachChildren, replay_append, h k c (.head _),
      ih fun k' c' hm => h k' c' (.tail _ hm)]

theorem applySubtreeWrite_eq_replay {c : CompoundWrite} (h : WF c) (p : Path) (n : FNode) :
    applySubtreeWrite c p n = n.replay (c.forEachPathSoFar p) := by
  induction h generalizing p n with
  | root hv => rfl
  | children hs hw hwr ih =>
    rw [forEachPathSoFar_mk, Option.toList_none, List.map_nil, List.append_nil, applySubtreeWrite]
    exact applyChildren_eq_replay ih p n

/-- **Applying a compound write performs the writes it lists**. -/
theorem applyToNode_eq_replay {c : CompoundWrite} (h : WF c) (n : FNode) :
    applyToNode c n = n.replay c.forEach := applySubtreeWrite_eq_replay h [] n

/-! ## Applying, level by level -/

@[simp] theorem applyToNode_empty (n : FNode) : applyToNode ImmutableTree.empty n = n := rfl

@[simp] theorem applyToNode_initWithValue (v n : FNode) : applyToNode (initWithValue v) n = v := rfl

/-- The writes of a child are performed inside the child. -/
theorem applyChildren_cons {k : String} {c : CompoundWrite} (h : WF c) (hw : Writes c)
    (cs : List (String × CompoundWrite)) {n : FNode} (hn : n.WF) :
    applyChildren ((k, c) :: cs) [] n =
      applyChildren cs [] (n.setChild k (applyToNode c (n.child k))) := by
  rw [applyChildren, List.nil_append, applySubtreeWrite_eq_replay h, forEachPathSoFar_append,
    replay_below hn (forEach_stores h hw.2), applyToNode_eq_replay h]
  rfl

theorem WF.applyToNode {c : CompoundWrite} (h : WF c) {n : FNode} (hn : n.WF) :
    (applyToNode c n).WF := by
  cases h with
  | root hv => exact hv
  | children hs hw hwr =>
    have hc := WF.children hs hw hwr
    rw [applyToNode_eq_replay hc]
    exact hn.replay fun w hm => (forEach_stores hc nofun w hm).1

/-- Applying a compound write that writes something leaves something. -/
theorem isEmpty_applyToNode {c : CompoundWrite} (h : WF c) (hw : Writes c) (n : FNode) :
    (applyToNode c n).isEmpty = false := by
  have hst := forEach_stores h hw.2
  rw [applyToNode_eq_replay h]
  cases hf : c.forEach with
  | nil => exact absurd hf (forEach_ne_nil h hw.1)
  | cons w ws =>
    rw [hf] at hst
    rw [replay_cons]
    exact isEmpty_replay (isEmpty_set (hst w (.head _)).2) fun w' hw' => hst w' (.tail _ hw')

/-- The children of a node after the writes of a node without value. -/
theorem child_applyChildren {cs : List (String × CompoundWrite)} (h : WF (.mk none cs)) {n : FNode}
    (hn : n.WF) (k : String) :
    (applyChildren cs [] n).child k =
      applyToNode ((ImmutableTree.mk none cs).child k) (n.child k) := by
  induction cs generalizing n with
  | nil => rfl
  | cons x cs ih =>
    obtain ⟨j, c⟩ := x
    cases h with
    | children hs hw hwr =>
      have hc := hw j c (.head _)
      have hcw := hwr j c (.head _)
      have htail : WF (.mk none cs) := .children hs.tail (fun k' c' hm => hw k' c' (.tail _ hm))
        fun k' c' hm => hwr k' c' (.tail _ hm)
      rw [applyChildren_cons hc hcw cs hn, ih htail (hn.setChild j (hc.applyToNode (hn.child j))),
        child_setChild, child_mk, child_mk, find]
      split
      · rename_i hk
        subst hk
        have hnone : find k cs = none :=
          find_eq_none.2 fun y hy => ((List.pairwise_cons.1 hs).1 y hy).ne'
        rw [hnone]
        rfl
      · rfl

/-- What is written below a node leaves a node, and no leaf. -/
theorem leafValue_applyChildren {cs : List (String × CompoundWrite)} (h : WF (.mk none cs))
    {n : FNode} (hn : n.WF) (hor : n.leafValue = none ∨ cs ≠ []) :
    (applyChildren cs [] n).leafValue = none := by
  induction cs generalizing n with
  | nil => exact hor.resolve_right fun hne => hne rfl
  | cons x cs ih =>
    obtain ⟨j, c⟩ := x
    cases h with
    | children hs hw hwr =>
      have hc := hw j c (.head _)
      have hcw := hwr j c (.head _)
      have htail : WF (.mk none cs) := .children hs.tail (fun k' c' hm => hw k' c' (.tail _ hm))
        fun k' c' hm => hwr k' c' (.tail _ hm)
      rw [applyChildren_cons hc hcw cs hn]
      exact ih htail (hn.setChild j (hc.applyToNode (hn.child j)))
        (.inl (leafValue_setChild n j (isEmpty_applyToNode hc hcw _)))

/-! ## Adding and applying -/

/-- **Adding a write and applying** is applying and performing the write. -/
theorem applyToNode_addWrite {c : CompoundWrite} (h : WF c) {node n : FNode} (hnode : node.WF)
    (hne : node.isEmpty = false) (hn : n.WF) (p : Path) :
    applyToNode (addWrite c node p) n = (applyToNode c n).set p node := by
  induction p generalizing c n with
  | nil => rfl
  | cons k p ih =>
    cases h with
    | root hv => rw [addWrite_initWithValue]; rfl
    | @children cs hs hw hwr =>
      have hc := WF.children hs hw hwr
      have hadd := hc.addWrite hnode hne (k :: p)
      have hset := (hc.applyToNode hn).set (k :: p) hnode
      apply ext_child (hadd.applyToNode hn) hset
      · rw [leafValue_set_cons _ k p hne]
        rw [addWrite_children hc] at hadd ⊢
        exact leafValue_applyChildren hadd hn
          (.inr (put_ne_nil (writes_addWrite (hc.child k) hne p).1 cs))
      · intro j
        rw [addWrite_children hc] at hadd ⊢
        show (applyChildren _ [] n).child j = ((applyChildren cs [] n).set (k :: p) node).child j
        rw [child_applyChildren hadd hn, child_put, KeyTree.set, child_setChild]
        split
        · rename_i hj
          rw [hj, ih (hc.child k) (hn.child k), child_applyChildren hc hn]
        · rw [child_applyChildren hc hn]

/-- Adding a list of writes and applying performs them after the others. -/
theorem applyToNode_foldl_addWrite {c : CompoundWrite} (h : WF c) {n : FNode} (hn : n.WF)
    {ws : List (Path × FNode)} (hws : ∀ w ∈ ws, Stores w) :
    WF (ws.foldl (fun c w => addWrite c w.2 w.1) c) ∧
      applyToNode (ws.foldl (fun c w => addWrite c w.2 w.1) c) n =
        (applyToNode c n).replay ws := by
  induction ws generalizing c with
  | nil => exact ⟨h, rfl⟩
  | cons w ws ih =>
    have hw := hws w (.head _)
    have hadd := ih (h.addWrite hw.1 hw.2 w.1) fun w' hw' => hws w' (.tail _ hw')
    rw [List.foldl_cons, replay_cons, ← applyToNode_addWrite h hw.1 hw.2 hn w.1]
    exact hadd

theorem addCompoundWrite_eq (c m : CompoundWrite) (p : Path) :
    addCompoundWrite c m p =
      (m.forEachPathSoFar p).foldl (fun c w => addWrite c w.2 w.1) c := by
  rw [addCompoundWrite, forEachPathSoFar_append, List.foldl_map]

/-- **Adding a compound write and applying** is applying and performing the writes it lists, which
is one write at its path. -/
theorem applyToNode_addCompoundWrite {c m : CompoundWrite} (h : WF c) (hm : WF m)
    (hroot : ∀ node, m.value = some node → node.isEmpty = false) {n : FNode} (hn : n.WF) (p : Path) :
    applyToNode (addCompoundWrite c m p) n =
      (applyToNode c n).set p (applyToNode m ((applyToNode c n).get p)) := by
  have hst := forEach_stores hm hroot
  have hall : ∀ w ∈ m.forEachPathSoFar p, Stores w := by
    intro w hw
    rw [forEachPathSoFar_append, List.mem_map] at hw
    obtain ⟨w', hw', rfl⟩ := hw
    exact hst w' hw'
  rw [addCompoundWrite_eq, (applyToNode_foldl_addWrite h hn hall).2, forEachPathSoFar_append,
    replay_below (h.applyToNode hn) hst, applyToNode_eq_replay hm]

/-! ## Complete nodes -/

@[simp] theorem completeNodeAtPath_initWithValue (v : FNode) (p : Path) :
    completeNodeAtPath (initWithValue v) p = some (v.get p) := by
  rw [completeNodeAtPath, findRootMost_initWithValue]
  rfl

@[simp] theorem completeNodeAtPath_empty (p : Path) :
    completeNodeAtPath ImmutableTree.empty p = none := by
  rw [completeNodeAtPath, findRootMost_empty]

theorem completeNodeAtPath_children_nil (cs : List (String × CompoundWrite)) :
    completeNodeAtPath (.mk none cs) [] = none := rfl

theorem completeNodeAtPath_children (cs : List (String × CompoundWrite)) (k : String) (p : Path) :
    completeNodeAtPath (.mk none cs) (k :: p) =
      completeNodeAtPath ((ImmutableTree.mk none cs).child k) p := by
  rw [completeNodeAtPath, completeNodeAtPath, findRootMost_cons]
  cases ((ImmutableTree.mk none cs).child k).findRootMostValueAndPath p <;> rfl

/-- The test for the empty path in `childCompoundWriteAtPath` changes nothing. -/
theorem childCompoundWriteAtPath_eq {c : CompoundWrite} (h : WF c) (p : Path) :
    childCompoundWriteAtPath c p = match completeNodeAtPath c p with
      | some shadowingNode => initWithValue shadowingNode
      | none => c.subtreeAtPath p := by
  cases p with
  | cons k p => rfl
  | nil =>
    cases h with
    | root hv => simp [childCompoundWriteAtPath]
    | children hs hw hwr => simp [childCompoundWriteAtPath, completeNodeAtPath_children_nil]

@[simp] theorem childCompoundWriteAtPath_nil (c : CompoundWrite) :
    childCompoundWriteAtPath c [] = c := rfl

theorem childCompoundWriteAtPath_initWithValue (v : FNode) (p : Path) :
    childCompoundWriteAtPath (initWithValue v) p = initWithValue (v.get p) := by
  cases p with
  | nil => rfl
  | cons k p =>
    simp only [childCompoundWriteAtPath, List.isEmpty_cons, Bool.false_eq_true, ↓reduceIte,
      completeNodeAtPath_initWithValue]

theorem childCompoundWriteAtPath_children {cs : List (String × CompoundWrite)}
    (h : WF (.mk none cs)) (k : String) (p : Path) :
    childCompoundWriteAtPath (.mk none cs) (k :: p) =
      childCompoundWriteAtPath ((ImmutableTree.mk none cs).child k) p := by
  rw [childCompoundWriteAtPath_eq h, childCompoundWriteAtPath_eq (h.child k),
    completeNodeAtPath_children, subtreeAtPath_cons]

theorem WF.childCompoundWriteAtPath {c : CompoundWrite} (h : WF c) (p : Path) :
    WF (childCompoundWriteAtPath c p) := by
  induction p generalizing c with
  | nil => exact h
  | cons k p ih =>
    cases h with
    | root hv => rw [childCompoundWriteAtPath_initWithValue]; exact .root (hv.get _)
    | children hs hw hwr =>
      have hc := WF.children hs hw hwr
      rw [childCompoundWriteAtPath_children hc]
      exact ih (hc.child k)

/-- **What a path shows** is the compound write of the path applied to what was there. -/
theorem get_applyToNode {c : CompoundWrite} (h : WF c) {n : FNode} (hn : n.WF) (p : Path) :
    (applyToNode c n).get p = applyToNode (childCompoundWriteAtPath c p) (n.get p) := by
  induction p generalizing c n with
  | nil => rfl
  | cons k p ih =>
    cases h with
    | root hv => rw [childCompoundWriteAtPath_initWithValue]; rfl
    | @children cs hs hw hwr =>
      have hc := WF.children hs hw hwr
      rw [childCompoundWriteAtPath_children hc, get_cons, get_cons, ← ih (hc.child k) (hn.child k)]
      show ((applyChildren cs [] n).child k).get p = _
      rw [child_applyChildren hc hn]

theorem value_childCompoundWriteAtPath {c : CompoundWrite} (h : WF c) (p : Path) :
    (childCompoundWriteAtPath c p).value = completeNodeAtPath c p := by
  induction p generalizing c with
  | nil => cases h <;> rfl
  | cons k p ih =>
    cases h with
    | root hv =>
      rw [childCompoundWriteAtPath_initWithValue, completeNodeAtPath_initWithValue]
      rfl
    | children hs hw hwr =>
      have hc := WF.children hs hw hwr
      rw [childCompoundWriteAtPath_children hc, completeNodeAtPath_children, ih (hc.child k)]

theorem childCompoundWriteAtPath_append {c : CompoundWrite} (h : WF c) (p q : Path) :
    childCompoundWriteAtPath c (p ++ q) =
      childCompoundWriteAtPath (childCompoundWriteAtPath c p) q := by
  induction p generalizing c with
  | nil => rfl
  | cons k p ih =>
    cases h with
    | root hv => simp only [childCompoundWriteAtPath_initWithValue, get_append]
    | children hs hw hwr =>
      have hc := WF.children hs hw hwr
      rw [List.cons_append, childCompoundWriteAtPath_children hc,
        childCompoundWriteAtPath_children hc, ih (hc.child k)]

theorem completeNodeAtPath_append {c : CompoundWrite} (h : WF c) (p q : Path) :
    completeNodeAtPath c (p ++ q) = completeNodeAtPath (childCompoundWriteAtPath c p) q := by
  rw [← value_childCompoundWriteAtPath h, childCompoundWriteAtPath_append h,
    value_childCompoundWriteAtPath (h.childCompoundWriteAtPath p)]

theorem leafValue_applyToNode_children {cs : List (String × CompoundWrite)} (h : WF (.mk none cs))
    {n : FNode} (hn : n.WF) :
    (applyToNode (.mk none cs) n).leafValue = if cs.isEmpty then n.leafValue else none := by
  cases cs with
  | nil => rfl
  | cons x cs => exact leafValue_applyChildren h hn (.inr (List.cons_ne_nil _ _))

theorem child_applyToNode_children {cs : List (String × CompoundWrite)} (h : WF (.mk none cs))
    {n : FNode} (hn : n.WF) (k : String) :
    (applyToNode (.mk none cs) n).child k =
      applyToNode ((ImmutableTree.mk none cs).child k) (n.child k) := child_applyChildren h hn k

/-- A child shows nothing when there is nothing and nothing is written. -/
theorem isEmpty_child_applyToNode {cs : List (String × CompoundWrite)} (h : WF (.mk none cs))
    {k : String} {n : FNode}
    (he : (applyToNode ((ImmutableTree.mk none cs).child k) n).isEmpty = true) :
    ((ImmutableTree.mk none cs).child k).isEmpty = true := by
  cases h with
  | children hs hw hwr =>
    cases hf : find k cs with
    | none => simp [child_mk, hf]
    | some c =>
      simp only [child_mk, hf, Option.getD_some] at he
      rw [isEmpty_applyToNode (hw k c (mem_of_find hf)) (hwr k c (mem_of_find hf))] at he
      cases he

/-- **What is written below** shows, with the writes there applied, unless they hide it. -/
theorem applyToNode_set {c : CompoundWrite} (h : WF c) {s n : FNode} (hs : s.WF) (hn : n.WF)
    {r : Path} (hr : completeNodeAtPath c r = none) :
    applyToNode c (s.set r n) =
      (applyToNode c s).set r (applyToNode (childCompoundWriteAtPath c r) n) := by
  induction r generalizing c s with
  | nil => rfl
  | cons k r ih =>
    cases h with
    | root hv => rw [completeNodeAtPath_initWithValue] at hr; cases hr
    | @children cs hs' hw hwr =>
      have hc := WF.children hs' hw hwr
      rw [completeNodeAtPath_children] at hr
      have hk := ih (hc.child k) (hs.child k) hr
      have hset := hs.set (k :: r) hn
      have hM := (hc.childCompoundWriteAtPath (k :: r)).applyToNode hn
      apply ext_child (hc.applyToNode hset) ((hc.applyToNode hs).set (k :: r) hM)
      · rw [leafValue_applyToNode_children hc hset]
        simp only [KeyTree.set, leafValue_setChild_eq, leafValue_applyToNode_children hc hs,
          child_applyToNode_children hc hs, childCompoundWriteAtPath_children hc, ← hk]
        by_cases he : (applyToNode ((ImmutableTree.mk none cs).child k)
            ((s.child k).set r n)).isEmpty = true
        · rw [if_pos he]
          have hce := eq_empty (isEmpty_child_applyToNode hc he)
          rw [hce] at he
          have hne : ((s.child k).set r n).isEmpty = true := he
          rw [if_pos hne]
        · rw [if_neg he]
          split
          · -- without a write the child has what was written
            rename_i hcs
            rw [List.isEmpty_iff.1 hcs] at he
            rw [if_neg]
            exact he
          · rfl
      · intro j
        rw [child_applyToNode_children hc hset]
        simp only [KeyTree.set, child_setChild, child_applyToNode_children hc hs,
          childCompoundWriteAtPath_children hc]
        split
        · rename_i hj
          rw [hj, hk]
        · rfl

/-- **What is written below a complete write** does not show. -/
theorem applyToNode_set_of_complete {c : CompoundWrite} (h : WF c) {s n : FNode} (hs : s.WF)
    (hn : n.WF) {r : Path} (hr : (completeNodeAtPath c r).isSome = true) :
    applyToNode c (s.set r n) = applyToNode c s := by
  induction r generalizing c s with
  | nil =>
    cases h with
    | root hv => rfl
    | children hs' hw hwr => cases hr
  | cons k r ih =>
    cases h with
    | root hv => rfl
    | @children cs hs' hw hwr =>
      have hc := WF.children hs' hw hwr
      rw [completeNodeAtPath_children] at hr
      have hset := hs.set (k :: r) hn
      have hcs : cs.isEmpty = false := by
        cases cs with
        | cons x cs => rfl
        | nil => cases r <;> cases hr
      apply ext_child (hc.applyToNode hset) (hc.applyToNode hs)
      · rw [leafValue_applyToNode_children hc hset, leafValue_applyToNode_children hc hs, hcs]
        rfl
      · intro j
        rw [child_applyToNode_children hc hset, child_applyToNode_children hc hs, KeyTree.set,
          child_setChild]
        split
        · rename_i hj
          rw [hj, ih (hc.child k) (hs.child k) hr]
        · rfl

end CompoundWrite

end Firebase
