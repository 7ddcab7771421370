import IChat.Firebase.Proof.Registrations

/-!
# What all views show

`AllSynced t`: every view shows the server data it has with the pending writes applied. The sync
tree's operations keep this, and a new view starts so. An acknowledgement keeps it if no view shows
a leaf above the write (`NoLeafAbove`).
-/

open SortedMap KeyTree ImmutableTree

namespace Firebase

open FPath CompoundWrite WriteTree

/-! ## Operations as locations see them -/

namespace Operation

theorem operationForPath_append (p q : Path) (op : Operation) :
    op.operationForPath (p ++ q) = (op.operationForPath p).bind (operationForPath q) := by
  induction p generalizing op with
  | nil => rfl
  | cons k p ih =>
    show (op.operationForChild k).bind (operationForPath (p ++ q)) =
      ((op.operationForChild k).bind (operationForPath p)).bind (operationForPath q)
    rw [Option.bind_assoc]
    exact congrArg _ (funext ih)

/-- On the way to its path an operation stays what it is. -/
theorem operationForPath_prefix {f : Path → Operation}
    (hf : ∀ k q, (f (k :: q)).operationForChild k = some (f q)) (p r : Path) :
    (f (p ++ r)).operationForPath p = some (f r) := by
  induction p with
  | nil => rfl
  | cons k p ih =>
    show ((f (k :: (p ++ r))).operationForChild k).bind (operationForPath p) = _
    rw [hf, Option.bind_some, ih]

theorem operationForPath_userOverwrite (snap : FNode) (r : Path) :
    (userOverwrite [] snap).operationForPath r = some (userOverwrite [] (snap.get r)) := by
  induction r generalizing snap with
  | nil => rfl
  | cons k r ih => exact ih (snap.child k)

theorem operationForPath_ackUserWrite {affected : ImmutableTree String Unit}
    (h : affected.value.isSome = true) (revert : Bool) (r : Path) :
    (ackUserWrite [] affected revert).operationForPath r = some (ackUserWrite [] affected revert) := by
  induction r with
  | nil => rfl
  | cons k r ih =>
    show ((ackUserWrite [] affected revert).operationForChild k).bind (operationForPath r) = _
    rw [operationForChild, if_pos h]
    exact ih

/-- The server's operations. -/
def FromServer : Operation → Prop
  | serverOverwrite _ _ | serverMerge _ _ | listenComplete _ => True
  | userOverwrite _ _ | userMerge _ _ | ackUserWrite _ _ _ => False

theorem FromServer.operationForChild {op op' : Operation} (h : op.FromServer) {k : String}
    (hop : op.operationForChild k = some op') : op'.FromServer := by
  cases op with
  | serverOverwrite p n => cases p <;> cases hop <;> trivial
  | serverMerge p m =>
    cases p with
    | nil =>
      simp only [Operation.operationForChild, mergeForChild] at hop
      split at hop
      · cases hop
      · split at hop <;> cases hop <;> trivial
    | cons j p => cases hop; trivial
  | listenComplete p => cases p <;> cases hop <;> trivial
  | _ => cases h

theorem FromServer.operationForPath {op op' : Operation} (h : op.FromServer) {p : Path}
    (hop : op.operationForPath p = some op') : op'.FromServer := by
  induction p generalizing op with
  | nil => cases hop; exact h
  | cons k p ih =>
    obtain ⟨op₁, h₁, hop⟩ := Option.bind_eq_some_iff.1 hop
    exact ih (h.operationForChild h₁) hop

end Operation

namespace SyncTree

variable {t : SyncTree}

/-- What a location has to do with an operation: nothing, or it is at or below its path, or at or
above. -/
theorem concerning_cases {f : Path → Operation}
    (hf : ∀ k q, (f (k :: q)).operationForChild k = some (f q)) (path p : Path) :
    (Apart path p ∧ concerning path (f path) p = none) ∨
      (∃ r, p = path ++ r ∧ concerning path (f path) p = (f []).operationForPath r) ∨
        ∃ r, path = p ++ r ∧ concerning path (f path) p = some (f r) := by
  rcases apart_or_prefix path p with hap | ⟨r, rfl⟩ | ⟨r, rfl⟩
  · exact .inl ⟨hap, if_neg fun hp => hp.elim (fun hp => not_apart_of_prefix hp hap)
      fun hp => not_apart_of_prefix hp hap.symm⟩
  · refine .inr (.inl ⟨r, rfl, ?_⟩)
    have hpath := Operation.operationForPath_prefix hf path []
    rw [List.append_nil] at hpath
    rw [concerning, if_pos (.inl (List.prefix_append path r)), Operation.operationForPath_append,
      hpath, Option.bind_some]
  · refine .inr (.inr ⟨r, rfl, ?_⟩)
    rw [concerning, if_pos (.inr (List.prefix_append p r)), Operation.operationForPath_prefix hf]

/-- Every view shows its server data with the pending writes applied. -/
def AllSynced (t : SyncTree) : Prop :=
  ∀ p v, t.syncPointTree.valueAtPath p = some v → Synced t.pendingWriteTree p v.viewCache

/-! ## The server -/

theorem allSynced_server (h : ViewsWF [] t.syncPointTree)
    (hw : CompoundWrite.WF t.pendingWriteTree.visibleWrites) (hs : t.AllSynced) {op : Operation}
    (hop : op.Nodes) (hserver : op.FromServer) : (t.applyOperationToSyncPoints op).1.AllSynced := by
  intro p v' hv'
  obtain ⟨v, hv, ⟨-, rfl, -⟩ | ⟨op', server, hc, hop', -, rfl, -⟩⟩ :=
    view_applyOperationToSyncPoints h hop hv'
  · exact hs p v' hv
  · have hwf := (h.views p v hv).2
    have hop'' : op'.FromServer := by
      rw [concerning, Option.ite_none_right_eq_some] at hc
      exact hserver.operationForPath hc.2
    cases op' with
    | serverOverwrite r n =>
      exact ViewProcessor.synced_applyServerOverwriteTo hw hwf (hs p v hv) r hop'
    | serverMerge r m => exact ViewProcessor.synced_applyServerMergeTo hw hwf (hs p v hv) r hop'
    | listenComplete r => exact ViewProcessor.synced_listenComplete hw hwf (hs p v hv) r
    | _ => cases hop''

/-! ## Writes -/

theorem allSynced_userOverwrite (h : ViewsWF [] t.syncPointTree)
    (hw : CompoundWrite.WF t.pendingWriteTree.visibleWrites) (hs : t.AllSynced) {path : Path}
    {newData : FNode} (hnew : Stores (path, newData)) (writeId : Int) :
    (t.applyUserOverwriteAtPath path newData writeId true).1.AllSynced := by
  have hadd : (t.pendingWriteTree.addOverwriteAtPath path newData writeId true).visibleWrites =
      addWrite t.pendingWriteTree.visibleWrites newData path := rfl
  have hop : (Operation.userOverwrite path newData).Nodes := hnew.1
  simp only [applyUserOverwriteAtPath, Bool.not_true, Bool.false_eq_true, if_false]
  generalize t.pendingWriteTree.addOverwriteAtPath path newData writeId true = t' at hadd ⊢
  have hviews : ViewsWF [] (SyncTree.mk t.syncPointTree t').syncPointTree := h
  have hw' : CompoundWrite.WF t'.visibleWrites := hadd ▸ hw.addWrite hnew.1 hnew.2 path
  intro p v' hv'
  show Synced t' p v'.viewCache
  have hcases := concerning_cases (f := (Operation.userOverwrite · newData)) (fun _ _ => rfl) path p
  obtain ⟨v, hv, ⟨hc, rfl, -⟩ | ⟨op', server, hc, -, -, rfl, -⟩⟩ :=
    view_applyOperationToSyncPoints hviews hop hv'
  · rcases hcases with ⟨hap, -⟩ | ⟨r, rfl, hc'⟩ | ⟨r, rfl, hc'⟩
    · exact ViewProcessor.synced_apart hw' hw (hs p v' hv) hnew hap (.inl hadd)
    · rw [Operation.operationForPath_userOverwrite] at hc'
      cases hc.symm.trans hc'
    · cases hc.symm.trans hc'
  · rcases hcases with ⟨-, hc'⟩ | ⟨r, rfl, hc'⟩ | ⟨r, rfl, hc'⟩
    · cases hc.symm.trans hc'
    · rw [Operation.operationForPath_userOverwrite] at hc'
      cases hc.symm.trans hc'
      exact ViewProcessor.synced_userOverwrite_above hw hnew hadd server
    · cases hc.symm.trans hc'
      exact ViewProcessor.synced_userOverwrite_below hw (h.views p v hv).2 (hs p v hv) hnew hadd
        server

/-! ## Answers -/

/-- No view shows a leaf above a path, with the writes that are left. -/
def NoLeafAbove (t : SyncTree) (writes : WriteTree) (path : Path) : Prop :=
  ∀ p v r, path = p ++ r → t.syncPointTree.valueAtPath p = some v →
    v.viewCache.cachedServerSnap.isFullyInitialized = true →
      (writes.shown p v.viewCache.cachedServerSnap.node).belowLeaf r = false

/-- **The answer to a write** shows what there is without it. -/
theorem allSynced_answer (h : ViewsWF [] t.syncPointTree)
    (hw : CompoundWrite.WF t.pendingWriteTree.visibleWrites) (hs : t.AllSynced) {t' : WriteTree}
    (hw' : CompoundWrite.WF t'.visibleWrites) {path : Path}
    (hrem : Removed t.pendingWriteTree t' path) (revert : Bool)
    (hleaf : revert = false → t.NoLeafAbove t' path) :
    (SyncTree.applyOperationToSyncPoints ⟨t.syncPointTree, t'⟩
      (.ackUserWrite path (initWithValue ()) revert)).1.AllSynced := by
  have hop : (Operation.ackUserWrite path (initWithValue ()) revert).Nodes := trivial
  have hviews : ViewsWF [] (SyncTree.mk t.syncPointTree t').syncPointTree := h
  intro p v' hv'
  show Synced t' p v'.viewCache
  have hcases := concerning_cases (f := (Operation.ackUserWrite · (initWithValue ()) revert))
    (fun _ _ => rfl) path p
  obtain ⟨v, hv, ⟨hc, rfl, -⟩ | ⟨op', server, hc, -, -, rfl, -⟩⟩ :=
    view_applyOperationToSyncPoints hviews hop hv'
  · rcases hcases with ⟨hap, -⟩ | ⟨r, rfl, hc'⟩ | ⟨r, rfl, hc'⟩
    · obtain ⟨newData, hnew, hadd⟩ := hrem.write
      exact ViewProcessor.synced_apart hw' hw (hs p v' hv) hnew hap (.inr hadd)
    · rw [Operation.operationForPath_ackUserWrite rfl] at hc'
      cases hc.symm.trans hc'
    · cases hc.symm.trans hc'
  · rcases hcases with ⟨-, hc'⟩ | ⟨r, rfl, hc'⟩ | ⟨r, rfl, hc'⟩
    · cases hc.symm.trans hc'
    · rw [Operation.operationForPath_ackUserWrite rfl] at hc'
      cases hc.symm.trans hc'
      exact ViewProcessor.synced_answer_above hw hw' (h.views _ v hv).2 (hs _ v hv) hrem revert
    · cases hc.symm.trans hc'
      cases revert with
      | true => exact ViewProcessor.synced_revertBelow hw' (h.views p v hv).2 (hs p v hv) hrem
      | false =>
        exact ViewProcessor.synced_ackBelow hw' (h.views p v hv).2 (hs p v hv) hrem
          (hleaf rfl p v r rfl hv)

/-! ## Registrations -/

/-- A new view shows what there is. -/
theorem synced_initialViewCache {w : WriteTree} (hw : CompoundWrite.WF w.visibleWrites) (p : Path)
    (cache : CacheNode) : Synced w p (initialViewCache ⟨p, w⟩ cache) := by
  unfold initialViewCache
  simp only [WriteTreeRef.calculateCompleteEventCache]
  cases hfull : cache.isFullyInitialized with
  | true =>
    simp only [if_true, calculateCompleteEventCache_some hw]
    exact ⟨fun _ => ⟨rfl, rfl⟩, fun n hn => ⟨rfl, shown_of_complete hw hn cache.node⟩⟩
  | false =>
    simp only [Bool.false_eq_true, if_false, calculateCompleteEventCache_none hw]
    cases hp : completeNodeAtPath w.visibleWrites p with
    | some m =>
      refine ⟨fun hf => ?_, fun n hn => ?_⟩
      · cases hfull.symm.trans hf
      · cases hp.symm.trans hn
        exact ⟨rfl, rfl⟩
    | none => exact ViewProcessor.synced_of_open hp hfull

theorem allSynced_addEventRegistration
    (hw : CompoundWrite.WF t.pendingWriteTree.visibleWrites) (hs : t.AllSynced) (registration : Nat)
    (p : Path) : (t.addEventRegistration registration p).1.AllSynced := by
  obtain ⟨v, he, -, hcases⟩ := t.addEventRegistration_cases registration p
  intro q v' hv'
  rw [he] at hv' ⊢
  rw [valueAtPath_setValue] at hv'
  split at hv'
  · rename_i hq
    cases hv'
    subst hq
    rcases hcases with ⟨u, hu, rfl⟩ | ⟨-, rfl⟩
    · exact hs q u hu
    · exact synced_initialViewCache hw q _
  · exact hs q v' hv'

theorem allSynced_removeEventRegistration (hs : t.AllSynced) (registration : Option Nat) (p : Path)
    (cancelled : Bool) : (t.removeEventRegistration registration p cancelled).1.AllSynced := by
  intro q v' hv'
  obtain ⟨v, hv, -, hcache, -⟩ := view_removeEventRegistration hv'
  obtain ⟨tree, he, -⟩ := t.removeEventRegistration_cases registration p cancelled
  rw [he, hcache]
  exact hs q v hv

end SyncTree

end Firebase
