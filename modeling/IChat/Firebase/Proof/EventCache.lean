import IChat.Firebase.Proof.WriteTree

/-!
# What a location shows

`shown t p s` is the server data `s` of a path with the visible writes applied. It is the data at
the path after all pending writes (`shown_eq_replay`). The computations of `FWriteTree` give it
wherever the server data they need is known, and `calculateCompleteEventCacheAtPath:` gives it both
from `visibleWrites` and, record by record, from `allWrites`
(`calculateCompleteEventCache_layered`).
-/

open SortedMap KeyTree ImmutableTree

namespace Firebase

open FPath CompoundWrite

namespace WriteTree

/-- What is shown at a path whose server data is `s`. -/
def shown (t : WriteTree) (p : Path) (s : FNode) : FNode :=
  applyToNode (childCompoundWriteAtPath t.visibleWrites p) s

variable {t : WriteTree}

/-- **What is shown is what the writes leave**. -/
theorem shown_get (h : CompoundWrite.WF t.visibleWrites) {n : FNode} (hn : n.WF) (p : Path) :
    t.shown p (n.get p) = (applyToNode t.visibleWrites n).get p := (get_applyToNode h hn p).symm

/-- **What is shown is the data after all pending writes**. -/
theorem shown_eq_replay (hl : t.Layered) (hwf : ∀ r ∈ t.allWrites, r.WF) {n : FNode} (hn : n.WF)
    (p : Path) : t.shown p (n.get p) = (n.replay (writesOf t.allWrites)).get p := by
  rw [shown_get (hl.wf hwf) hn, hl,
    applyToNode_addWrites CompoundWrite.WF.empty hn (stores_writesOf hwf)]
  rfl

theorem WF.shown (h : CompoundWrite.WF t.visibleWrites) (p : Path) {s : FNode} (hs : s.WF) :
    (t.shown p s).WF := (h.childCompoundWriteAtPath p).applyToNode hs

/-- Below a path, what is shown is shown below. -/
theorem get_shown (h : CompoundWrite.WF t.visibleWrites) (p q : Path) {s : FNode} (hs : s.WF) :
    (t.shown p s).get q = t.shown (p ++ q) (s.get q) := by
  have hn : ((KeyTree.empty : FNode).set p s).WF := KeyTree.WF.empty.set p hs
  have hp := shown_get h hn p
  have hpq := shown_get h hn (p ++ q)
  rw [get_set_self] at hp
  rw [get_append, get_set_self, get_append] at hpq
  rw [hp, hpq]

theorem child_shown (h : CompoundWrite.WF t.visibleWrites) (p : Path) (k : String) {s : FNode}
    (hs : s.WF) : (t.shown p s).child k = t.shown (p ++ [k]) (s.child k) := get_shown h p [k] hs

theorem shown_of_complete (h : CompoundWrite.WF t.visibleWrites) {p : Path} {node : FNode}
    (hp : completeNodeAtPath t.visibleWrites p = some node) (s : FNode) : t.shown p s = node := by
  rw [← value_childCompoundWriteAtPath h] at hp
  rw [shown, (h.childCompoundWriteAtPath p).eq_initWithValue hp]
  rfl

/-! ## The computations -/

theorem shown_of_isEmpty {p : Path} (h : (childCompoundWriteAtPath t.visibleWrites p).isEmpty = true)
    (s : FNode) : t.shown p s = s := by
  rw [shown, eq_empty h]
  rfl

/-- With the server data of a path, everything there is known. -/
theorem calculateCompleteEventCache_some (h : CompoundWrite.WF t.visibleWrites) (p : Path)
    (s : FNode) :
    t.calculateCompleteEventCacheAtPath p (some s) none false = some (t.shown p s) := by
  simp only [calculateCompleteEventCacheAtPath, Option.isNone_none, Bool.not_false, Bool.and_self,
    ↓reduceIte, Option.isNone_some, Bool.false_and, Bool.false_eq_true]
  cases hp : completeNodeAtPath t.visibleWrites p with
  | some node => rw [shown_of_complete h hp]
  | none =>
    simp only
    split
    · rename_i he
      rw [shown_of_isEmpty he]
    · rfl

/-- Without it, what is known is what the writes overwrite completely. -/
theorem calculateCompleteEventCache_none (h : CompoundWrite.WF t.visibleWrites) (p : Path) :
    t.calculateCompleteEventCacheAtPath p none none false =
      completeNodeAtPath t.visibleWrites p := by
  simp only [calculateCompleteEventCacheAtPath, Option.isNone_none, Bool.not_false, Bool.and_self,
    ↓reduceIte, Bool.true_and]
  cases hp : completeNodeAtPath t.visibleWrites p with
  | some node => rfl
  | none =>
    have hroot : hasCompleteWriteAtPath (childCompoundWriteAtPath t.visibleWrites p) [] = false := by
      rw [hasCompleteWriteAtPath, ← value_childCompoundWriteAtPath (h.childCompoundWriteAtPath p),
        childCompoundWriteAtPath_nil, value_childCompoundWriteAtPath h, hp]
      rfl
    simp [hroot]

/-- New server data changes what is shown at its path unless the writes hide it. -/
theorem calculateEventCacheAfterServerOverwrite_eq (p q : Path) (s : FNode) :
    t.calculateEventCacheAfterServerOverwriteAtPath p q s =
      if (completeNodeAtPath t.visibleWrites (p ++ q)).isSome then none
      else some (t.shown (p ++ q) (s.get q)) := by
  unfold calculateEventCacheAfterServerOverwriteAtPath hasCompleteWriteAtPath
  by_cases hp : (completeNodeAtPath t.visibleWrites (p ++ q)).isSome = true
  · simp only [hp, ↓reduceIte]
  · simp only [hp, Bool.false_eq_true, ↓reduceIte]
    split
    · rename_i he
      rw [shown_of_isEmpty he]
    · rfl

/-- A child whose server data is known is known. -/
theorem calculateCompleteChild_complete (h : CompoundWrite.WF t.visibleWrites) (p : Path)
    {k : String} {cache : CacheNode} (hc : cache.isCompleteForChild k = true) :
    t.calculateCompleteChildAtPath p k cache = some (t.shown (p ++ [k]) (cache.node.child k)) := by
  simp only [calculateCompleteChildAtPath, hc, ↓reduceIte]
  cases hp : completeNodeAtPath t.visibleWrites (p ++ [k]) with
  | some node => rw [shown_of_complete h hp]
  | none => rfl

/-! ## The children that are known -/

theorem find_childrenOf {n : FNode} (h : n.WF) (k : String) :
    find k (childrenOf n) = if hasChild n k then some (n.child k) else none := by
  cases h with
  | leaf a => rfl
  | @node cs hs hw hn =>
    rcases Option.eq_none_or_eq_some (find k cs) with hf | ⟨c, hf⟩
    · simp [childrenOf, hasChild, KeyTree.child, hf]
    · simp [childrenOf, hasChild, KeyTree.child, hf, hn k c (mem_of_find hf)]

/-- A write that does not touch a path is not layered there. -/
theorem layerWrite_of_not_contains {p : Path} {r : WriteRecord} (h1 : contains p r.path = false)
    (h2 : contains r.path p = false) (c : CompoundWrite) : layerWrite p c r = c := by
  unfold layerWrite
  cases r.change <;> simp [h1, h2]

/-- One record, seen from a path. -/
theorem layerWrite_childCompoundWriteAtPath {c : CompoundWrite} (h : CompoundWrite.WF c)
    {r : WriteRecord} (hr : r.WF) (ho : ∃ newData, r.change = .overwrite newData) (p : Path) :
    layerWrite p (childCompoundWriteAtPath c p) r =
      childCompoundWriteAtPath (addWrites c r.writes) p := by
  obtain ⟨newData, hn⟩ := ho
  have hst : Stores (r.path, newData) :=
    hr.stores (by rw [WriteRecord.writes_overwrite hn]; exact .head _)
  rw [WriteRecord.writes_overwrite hn]
  show _ = childCompoundWriteAtPath (addWrite c newData r.path) p
  by_cases h1 : p <+: r.path
  · obtain ⟨q, hq⟩ := h1
    simp only [layerWrite, hn, ← hq, contains_iff.2 (List.prefix_append p q), ↓reduceIte,
      relativePathFrom_append]
    rw [childCompoundWriteAtPath_addWrite_below h hst]
  · have h1' : contains p r.path = false := by
      rw [← Bool.not_eq_true, contains_iff]; exact h1
    by_cases h2 : r.path <+: p
    · obtain ⟨q, rfl⟩ := h2
      simp only [layerWrite, hn, h1', Bool.false_eq_true, ↓reduceIte,
        contains_iff.2 (List.prefix_append r.path q), relativePathFrom_append, addWrite_nil]
      rw [childCompoundWriteAtPath_addWrite_above h hst]
    · have h2' : contains r.path p = false := by
        rw [← Bool.not_eq_true, contains_iff]; exact h2
      rw [layerWrite_of_not_contains h1' h2']
      rcases apart_or_prefix r.path p with hap | hp | hp
      · rw [childCompoundWriteAtPath_addWrite h hst hap]
      · exact absurd hp h2
      · exact absurd hp h1

theorem foldl_layerWrite_path {c : CompoundWrite} (h : CompoundWrite.WF c) {rs : List WriteRecord}
    (hwf : ∀ r ∈ rs, r.WF) (ho : Overwrites rs) (p : Path) :
    rs.foldl (layerWrite p) (childCompoundWriteAtPath c p) =
      childCompoundWriteAtPath (addWrites c (writesOf rs)) p := by
  induction rs generalizing c with
  | nil => rfl
  | cons r rs ih =>
    have hr := hwf r (.head _)
    rw [List.foldl_cons, layerWrite_childCompoundWriteAtPath h hr (ho r (.head _)), writesOf_cons,
      addWrites_append]
    exact ih (h.addWrites fun x hx => hr.stores hx) (fun r hr => hwf r (.tail _ hr))
      fun r hr => ho r (.tail _ hr)

/-- **Layering records from a path** gives what is seen from the path of layering them from the
root. -/
theorem layerTreeFromWrites_path {rs : List WriteRecord} (hwf : ∀ r ∈ rs, r.WF)
    (ho : Overwrites rs) (filter : WriteRecord → Bool) (p : Path) :
    layerTreeFromWrites rs filter p =
      childCompoundWriteAtPath (layerTreeFromWrites rs filter []) p := by
  have hempty : childCompoundWriteAtPath emptyWrite p = emptyWrite :=
    eq_empty (isEmpty_childCompoundWriteAtPath_empty p)
  unfold layerTreeFromWrites
  rw [foldl_layerWrite, ← foldl_layerWrite_path CompoundWrite.WF.empty
    (fun r hr => hwf r (List.mem_of_mem_filter hr)) (fun r hr => ho r (List.mem_of_mem_filter hr)),
    hempty]

/-- The writes whose ids are not excluded. -/
def kept (writeIdsToExclude : Option (List Int)) (r : WriteRecord) : Bool :=
  match writeIdsToExclude with
  | none => true
  | some ids => !(ids.contains r.writeId)

end WriteTree

end Firebase
