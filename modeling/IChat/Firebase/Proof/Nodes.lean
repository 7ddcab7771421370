import IChat.Firebase.WriteTree

/-!
# Well-formed nodes throughout

`CompoundWrite.Nodes c`: all writes of `c` write well-formed nodes, which may be empty. What a write
tree shows is then well-formed too, whatever is added to the tree and removed from it, in any order.
-/

open SortedMap KeyTree ImmutableTree

namespace Firebase

open FPath CompoundWrite

namespace CompoundWrite

/-- All nodes written are well-formed. -/
abbrev Nodes (c : CompoundWrite) : Prop := c.All KeyTree.WF

variable {c : CompoundWrite}

theorem WF.nodes (h : WF c) : Nodes c := by
  induction h with
  | root hn => exact .initWithValue hn
  | children hs hw hwr ih => exact .mk nofun ih

theorem Nodes.addWrite (h : Nodes c) {node : FNode} (hn : node.WF) (p : Path) :
    Nodes (addWrite c node p) := by
  unfold CompoundWrite.addWrite
  split
  · exact .initWithValue hn
  · split
    · rename_i hf
      exact h.setValue ((h.findRootMost hf).set _ hn) _
    · exact h.setTree (.initWithValue hn) p

theorem Nodes.addCompoundWrite (h : Nodes c) {m : CompoundWrite} (hm : Nodes m) (p : Path) :
    Nodes (addCompoundWrite c m p) := by
  have hall := hm.forEachPathSoFar []
  unfold CompoundWrite.addCompoundWrite ImmutableTree.forEach
  generalize m.forEachPathSoFar [] = ws at hall
  induction ws generalizing c with
  | nil => exact h
  | cons w ws ih =>
    exact ih (h.addWrite (hall w (.head _)) (p ++ w.1)) fun w' hw' => hall w' (.tail _ hw')

theorem Nodes.removeWriteAtPath (h : Nodes c) (p : Path) : Nodes (removeWriteAtPath c p) := by
  unfold CompoundWrite.removeWriteAtPath
  split
  · exact .empty
  · exact h.setTree .empty p

theorem Nodes.completeNodeAtPath (h : Nodes c) {p : Path} {node : FNode}
    (hp : completeNodeAtPath c p = some node) : node.WF := by
  unfold CompoundWrite.completeNodeAtPath at hp
  split at hp
  · rename_i hf
    cases hp
    exact (h.findRootMost hf).get _
  · cases hp

theorem Nodes.childCompoundWriteAtPath (h : Nodes c) (p : Path) :
    Nodes (childCompoundWriteAtPath c p) := by
  unfold CompoundWrite.childCompoundWriteAtPath
  split
  · exact h
  · split
    · rename_i hp
      exact .initWithValue (h.completeNodeAtPath hp)
    · exact h.subtreeAtPath p

theorem wf_applyChildren {cs : List (String × CompoundWrite)}
    (h : ∀ k c, (k, c) ∈ cs → ∀ p (n : FNode), n.WF → (applySubtreeWrite c p n).WF) (p : Path)
    {n : FNode} (hn : n.WF) : (applyChildren cs p n).WF := by
  induction cs generalizing n with
  | nil => exact hn
  | cons x cs ih =>
    obtain ⟨k, c⟩ := x
    exact ih (fun k' c' hm => h k' c' (.tail _ hm)) (h k c (.head _) _ n hn)

theorem Nodes.applySubtreeWrite (h : Nodes c) (p : Path) {n : FNode} (hn : n.WF) :
    (applySubtreeWrite c p n).WF := by
  induction h generalizing p n with
  | @mk v cs hv hc ih =>
    cases v with
    | some a => exact hn.set p (hv a rfl)
    | none => exact wf_applyChildren (fun k c hm p n hn => ih k c hm p hn) p hn

theorem Nodes.applyToNode (h : Nodes c) {n : FNode} (hn : n.WF) : (applyToNode c n).WF :=
  h.applySubtreeWrite [] hn

theorem wf_childrenOf {n : FNode} (h : n.WF) : ∀ x ∈ childrenOf n, x.2.WF := by
  cases h with
  | leaf a => nofun
  | node hs hw hne => exact fun x hx => hw x.1 x.2 hx

theorem Nodes.completeChildren (h : Nodes c) : ∀ x ∈ completeChildren c, x.2.WF := by
  intro x hx
  cases h with
  | @mk v cs hv hc => cases v with
    | some n => cases n with
      | leaf a => cases hx
      | node cs => exact wf_childrenOf (hv _ rfl) x hx
    | none =>
      obtain ⟨y, hy, hyx⟩ := List.mem_filterMap.1 hx
      obtain ⟨n, hn, rfl⟩ := Option.map_eq_some_iff.1 hyx
      exact (hc y.1 y.2 hy).of_value hn

end CompoundWrite

/-! ## What a write tree shows -/

namespace WriteTree

theorem wf_foldl_setChild {α : Type} {f : String × α → FNode} {xs : List (String × α)} {n : FNode}
    (hn : n.WF) (hf : ∀ x ∈ xs, (f x).WF) :
    (xs.foldl (fun m x => m.setChild x.1 (f x)) n).WF := by
  induction xs generalizing n with
  | nil => exact hn
  | cons x xs ih => exact ih (hn.setChild x.1 (hf x (.head _))) fun y hy => hf y (.tail _ hy)

section
variable {t : WriteTree} (h : Nodes t.visibleWrites)
include h

theorem wf_calculateCompleteEventCache {p : Path} {s : Option FNode} (hs : ∀ n ∈ s, n.WF)
    {n : FNode} (hn : t.calculateCompleteEventCacheAtPath p s none false = some n) : n.WF := by
  simp only [calculateCompleteEventCacheAtPath, Option.isNone_none, Bool.not_false, Bool.and_self,
    ↓reduceIte] at hn
  split at hn
  · rename_i hp
    cases hn
    exact h.completeNodeAtPath hp
  · split at hn
    · exact hs n hn
    · split at hn
      · cases hn
      · cases hn
        apply (h.childCompoundWriteAtPath p).applyToNode
        cases s with
        | none => exact .empty
        | some s => exact hs s rfl

theorem wf_calculateEventCacheAfterServerOverwrite {p q : Path} {s : FNode} (hs : s.WF) {n : FNode}
    (hn : t.calculateEventCacheAfterServerOverwriteAtPath p q s = some n) : n.WF := by
  simp only [calculateEventCacheAfterServerOverwriteAtPath] at hn
  split at hn
  · cases hn
  · split at hn <;> cases hn
    · exact hs.get q
    · exact (h.childCompoundWriteAtPath (p ++ q)).applyToNode (hs.get q)

theorem wf_calculateCompleteChild {p : Path} {k : String} {cache : CacheNode}
    (hs : cache.node.WF) {n : FNode} (hn : t.calculateCompleteChildAtPath p k cache = some n) :
    n.WF := by
  simp only [calculateCompleteChildAtPath] at hn
  split at hn
  · rename_i hp
    cases hn
    exact h.completeNodeAtPath hp
  · split at hn
    · cases hn
      exact (h.childCompoundWriteAtPath (p ++ [k])).applyToNode (hs.child k)
    · cases hn

theorem wf_calculateCompleteEventChildren (p : Path) {s : FNode} (hs : s.WF) :
    (t.calculateCompleteEventChildrenAtPath p s).WF := by
  have hM := h.childCompoundWriteAtPath p
  unfold calculateCompleteEventChildrenAtPath
  split
  · rename_i hp
    exact wf_foldl_setChild .empty (wf_childrenOf (h.completeNodeAtPath hp))
  · refine wf_foldl_setChild (wf_foldl_setChild .empty fun x hx => ?_) hM.completeChildren
    exact (hM.childCompoundWriteAtPath [x.1]).applyToNode (wf_childrenOf hs x hx)

end

/-! ## Adding and removing -/

end WriteTree

/-- The record writes well-formed nodes. -/
def WriteRecord.Nodes (r : WriteRecord) : Prop :=
  match r.change with
  | .overwrite newData => newData.WF
  | .merge m => CompoundWrite.Nodes m

namespace WriteTree

/-- All nodes that are written are well-formed. -/
structure Nodes (t : WriteTree) : Prop where
  visibleWrites : CompoundWrite.Nodes t.visibleWrites
  allWrites : ∀ r ∈ t.allWrites, r.Nodes

theorem Nodes.init : Nodes init := ⟨.empty, nofun⟩

variable {t : WriteTree}

theorem Nodes.addOverwrite (h : t.Nodes) (p : Path) {newData : FNode} (hn : newData.WF)
    (writeId : Int) (visible : Bool) :
    (t.addOverwriteAtPath p newData writeId visible).Nodes := by
  constructor
  · simp only [addOverwriteAtPath]
    split
    · exact h.visibleWrites.addWrite hn p
    · exact h.visibleWrites
  · intro r hr
    rcases List.mem_append.1 hr with hr | hr
    · exact h.allWrites r hr
    · rw [List.mem_singleton.1 hr]
      exact hn

theorem Nodes.addMerge (h : t.Nodes) (p : Path) {m : CompoundWrite} (hm : CompoundWrite.Nodes m)
    (writeId : Int) : (t.addMergeAtPath p m writeId).Nodes := by
  constructor
  · exact h.visibleWrites.addCompoundWrite hm p
  · intro r hr
    rcases List.mem_append.1 hr with hr | hr
    · exact h.allWrites r hr
    · rw [List.mem_singleton.1 hr]
      exact hm

theorem nodes_layerWrite {c : CompoundWrite} (h : CompoundWrite.Nodes c) {r : WriteRecord}
    (hr : r.Nodes) : CompoundWrite.Nodes (layerWrite [] c r) := by
  unfold WriteRecord.Nodes at hr
  unfold layerWrite
  cases hc : r.change with
  | overwrite newData =>
    rw [hc] at hr
    simp only [contains_iff.2 List.nil_prefix, ↓reduceIte]
    exact h.addWrite hr _
  | merge m =>
    rw [hc] at hr
    simp only [contains_iff.2 List.nil_prefix, ↓reduceIte]
    exact h.addCompoundWrite hr _

theorem Nodes.resetTree (h : t.Nodes) : t.resetTree.Nodes := by
  refine ⟨?_, h.allWrites⟩
  have hall : ∀ r ∈ t.allWrites.filter defaultFilter, r.Nodes := fun r hr =>
    h.allWrites r (List.mem_of_mem_filter hr)
  show CompoundWrite.Nodes ((t.allWrites.filter defaultFilter).foldl (layerWrite []) emptyWrite)
  exact List.foldlRecOn _ _ .empty fun c hc r hr => nodes_layerWrite hc (hall r hr)

theorem nodes_removeVisible {c : CompoundWrite} (h : CompoundWrite.Nodes c) (w : WriteRecord) :
    CompoundWrite.Nodes (removeVisible c w) := by
  unfold removeVisible
  split
  · exact h.removeWriteAtPath _
  · exact List.foldlRecOn _ _ h fun c hc x _ => hc.removeWriteAtPath _

theorem Nodes.removeWriteId (h : t.Nodes) {writeId : Int} {b : Bool} {t' : WriteTree}
    (hrem : t.removeWriteId writeId = some (b, t')) : t'.Nodes := by
  unfold WriteTree.removeWriteId at hrem
  split at hrem
  · cases hrem
  · rename_i index _
    obtain ⟨w, -, hw⟩ := Option.map_eq_some_iff.1 hrem
    have hall : ∀ r ∈ t.allWrites.eraseIdx index, r.Nodes := fun r hr =>
      h.allWrites r (List.mem_of_mem_eraseIdx hr)
    have ht : Nodes { t with allWrites := t.allWrites.eraseIdx index } := ⟨h.visibleWrites, hall⟩
    simp only at hw
    split at hw <;> cases hw
    · exact ht
    · exact ht.resetTree
    · exact ⟨nodes_removeVisible h.visibleWrites w, hall⟩

end WriteTree

end Firebase
