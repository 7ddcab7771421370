import IChat.Firebase.Proof.View

/-!
# What a view shows

`Synced t p v`: once the server data of the path `p` is complete, the event cache is that data with
the writes `t` applied, and so it is where the writes overwrite the path completely. Every operation
keeps this when the writes change as the operation says, though the processor recomputes only the
child that is affected. One case is an exception: the acknowledgement of a write below a leaf, which
leaves nothing where the leaf was (`synced_ackBelow_iff`).
-/

open SortedMap KeyTree ImmutableTree

namespace Firebase

open FPath CompoundWrite WriteTree

/-- What is shown is the server data with the writes applied. -/
structure Synced (t : WriteTree) (p : Path) (v : ViewCache) : Prop where
  full : v.cachedServerSnap.isFullyInitialized = true →
    v.cachedEventSnap.isFullyInitialized = true ∧
      v.cachedEventSnap.node = t.shown p v.cachedServerSnap.node
  hidden : ∀ n, completeNodeAtPath t.visibleWrites p = some n →
    v.cachedEventSnap.isFullyInitialized = true ∧ v.cachedEventSnap.node = n

/-- Writes that look the same from the path show the same. -/
theorem Synced.congr {t t' : WriteTree} {p : Path} {v : ViewCache} (hs : Synced t p v)
    (hw : CompoundWrite.WF t.visibleWrites) (hw' : CompoundWrite.WF t'.visibleWrites)
    (h : childCompoundWriteAtPath t'.visibleWrites p = childCompoundWriteAtPath t.visibleWrites p) :
    Synced t' p v := by
  constructor
  · intro hfull
    rw [WriteTree.shown, h]
    exact hs.full hfull
  · intro n hn
    rw [← value_childCompoundWriteAtPath hw', h, value_childCompoundWriteAtPath hw] at hn
    exact hs.hidden n hn

namespace ViewProcessor

variable {t : WriteTree} {p : Path} {v : ViewCache}

/-! ## Server data -/

theorem isSome_completeNodeAtPath_append (h : CompoundWrite.WF t.visibleWrites) (r : Path)
    (hp : (completeNodeAtPath t.visibleWrites p).isSome = true) :
    (completeNodeAtPath t.visibleWrites (p ++ r)).isSome = true := by
  obtain ⟨n, hn⟩ := Option.isSome_iff_exists.1 hp
  rw [← value_childCompoundWriteAtPath h] at hn
  rw [completeNodeAtPath_append h, (h.childCompoundWriteAtPath p).eq_initWithValue hn,
    completeNodeAtPath_initWithValue]
  rfl

/-- Where the writes leave something open, what is below it is open too. -/
theorem completeNodeAtPath_eq_none (h : CompoundWrite.WF t.visibleWrites) {r : Path}
    (hr : (completeNodeAtPath t.visibleWrites (p ++ r)).isSome = false) :
    completeNodeAtPath t.visibleWrites p = none := by
  cases hp : completeNodeAtPath t.visibleWrites p with
  | none => rfl
  | some n =>
    rw [isSome_completeNodeAtPath_append h r (by rw [hp]; rfl)] at hr
    cases hr

/-- What is shown when there is server data at a path below. -/
theorem shown_set (h : CompoundWrite.WF t.visibleWrites) {s n : FNode} (hs : s.WF) (hn : n.WF)
    {r : Path} (hr : completeNodeAtPath t.visibleWrites (p ++ r) = none) :
    t.shown p (s.set r n) = (t.shown p s).set r (t.shown (p ++ r) n) := by
  rw [completeNodeAtPath_append h] at hr
  rw [WriteTree.shown, applyToNode_set (h.childCompoundWriteAtPath p) hs hn hr,
    ← childCompoundWriteAtPath_append h]
  rfl

theorem shown_set_of_complete (h : CompoundWrite.WF t.visibleWrites) {s n : FNode} (hs : s.WF)
    (hn : n.WF) {r : Path} (hr : (completeNodeAtPath t.visibleWrites (p ++ r)).isSome = true) :
    t.shown p (s.set r n) = t.shown p s := by
  rw [completeNodeAtPath_append h] at hr
  exact applyToNode_set_of_complete (h.childCompoundWriteAtPath p) hs hn hr

/-- The event cache after server data at the path of the view. -/
theorem generate_nil (h : CompoundWrite.WF t.visibleWrites) (hv : v.WF)
    (hfull : v.cachedServerSnap.isFullyInitialized = true)
    (hp : completeNodeAtPath t.visibleWrites p = none) :
    (generateEventCacheAfterServerEvent v [] ⟨p, t⟩).1 =
      v.updateEventSnap (t.shown p v.cachedServerSnap.node) true false := by
  have hsnap : v.completeServerSnap = some v.cachedServerSnap.node := by
    simp [ViewCache.completeServerSnap, hfull]
  simp only [generateEventCacheAfterServerEvent, WriteTreeRef.shadowingWriteAtPath,
    shadowingWriteAtPath, List.append_nil, hp, Option.isSome_none, Bool.false_eq_true, ↓reduceIte,
    hv.serverAll, WriteTreeRef.calculateCompleteEventCache, hsnap,
    calculateCompleteEventCache_some h, Option.getD_some, IndexedFilter.updateFullNode_fst,
    List.isEmpty_nil, Bool.or_true]

/-- The event cache after server data below, when all is shown: the data there is replaced. -/
theorem generate_cons (hv : v.WF)
    (hfull : v.cachedEventSnap.isFullyInitialized = true) {k : String} {r : Path}
    (hp : completeNodeAtPath t.visibleWrites (p ++ k :: r) = none) :
    (generateEventCacheAfterServerEvent v (k :: r) ⟨p, t⟩).1 =
      v.updateEventSnap (v.cachedEventSnap.node.set (k :: r)
        (t.shown (p ++ k :: r) (v.cachedServerSnap.node.get (k :: r)))) true false := by
  have hchild : v.cachedEventSnap.isCompleteForChild k = true := by
    simp [CacheNode.isCompleteForChild, hfull, hv.eventAll]
  have hset := IndexedFilter.updateChildIn_set hv.event
    (t.shown (p ++ k :: r) (v.cachedServerSnap.node.get (k :: r))) k r
  simp only [generateEventCacheAfterServerEvent, WriteTreeRef.shadowingWriteAtPath,
    shadowingWriteAtPath, hp, Option.isSome_none, Bool.false_eq_true, ↓reduceIte, hchild,
    WriteTreeRef.calculateEventCacheAfterServerOverwrite,
    calculateEventCacheAfterServerOverwrite_eq, hset, hfull, Bool.true_or]

theorem generate_hidden {r : Path}
    (hp : (completeNodeAtPath t.visibleWrites (p ++ r)).isSome = true) :
    generateEventCacheAfterServerEvent v r ⟨p, t⟩ = (v, []) := by
  simp [generateEventCacheAfterServerEvent, WriteTreeRef.shadowingWriteAtPath,
    shadowingWriteAtPath, hp]

/-- Computing the event cache leaves the server cache alone. -/
theorem generate_server (r : Path) (w : WriteTreeRef) :
    (generateEventCacheAfterServerEvent v r w).1.cachedServerSnap = v.cachedServerSnap := by
  unfold generateEventCacheAfterServerEvent
  split <;> rfl

/-- **Server data**: the event cache follows the server cache. -/
theorem synced_generate (h : CompoundWrite.WF t.visibleWrites) (hv : v.WF) (hs : Synced t p v)
    {n : FNode} (hn : n.WF) (r : Path) :
    Synced t p (generateEventCacheAfterServerEvent
      (v.updateServerSnap (v.cachedServerSnap.node.set r n)
        (v.cachedServerSnap.isFullyInitialized || r.isEmpty) false) r ⟨p, t⟩).1 := by
  have hv' : (v.updateServerSnap (v.cachedServerSnap.node.set r n)
      (v.cachedServerSnap.isFullyInitialized || r.isEmpty) false).WF :=
    ⟨hv.server.set r hn, hv.event, rfl, hv.eventAll⟩
  cases hr : (completeNodeAtPath t.visibleWrites (p ++ r)).isSome with
  | true =>
    rw [generate_hidden hr]
    refine ⟨fun hfull => ?_, hs.hidden⟩
    show _ ∧ v.cachedEventSnap.node = t.shown p (v.cachedServerSnap.node.set r n)
    rw [shown_set_of_complete h hv.server hn hr]
    cases r with
    | nil =>
      rw [List.append_nil] at hr
      obtain ⟨m, hm⟩ := Option.isSome_iff_exists.1 hr
      rw [shown_of_complete h hm]
      exact hs.hidden m hm
    | cons k r => exact hs.full (by simpa [ViewCache.updateServerSnap] using hfull)
  | false =>
    have hnone := Option.isSome_eq_false_iff.1 hr
    rw [Option.isNone_iff_eq_none] at hnone
    have hp := completeNodeAtPath_eq_none h hr
    refine ⟨fun hfull => ?_, fun m hm => by rw [hp] at hm; cases hm⟩
    rw [generate_server] at hfull ⊢
    cases r with
    | nil =>
      rw [generate_nil h hv' (by simp [ViewCache.updateServerSnap]) hp]
      exact ⟨rfl, rfl⟩
    | cons k r =>
      have hfull' : v.cachedServerSnap.isFullyInitialized = true := by
        simpa [ViewCache.updateServerSnap] using hfull
      obtain ⟨hevent, hnode⟩ := hs.full hfull'
      rw [generate_cons hv' hevent hnone]
      refine ⟨rfl, ?_⟩
      show v.cachedEventSnap.node.set (k :: r) (t.shown (p ++ k :: r)
        ((v.cachedServerSnap.node.set (k :: r) n).get (k :: r))) =
          t.shown p (v.cachedServerSnap.node.set (k :: r) n)
      rw [get_set_self, shown_set h hv.server hn hnone, hnode]

theorem synced_applyServerOverwriteTo (h : CompoundWrite.WF t.visibleWrites) (hv : v.WF)
    (hs : Synced t p v) (r : Path) {snap : FNode} (hsnap : snap.WF) :
    Synced t p (applyServerOverwriteTo v r snap ⟨p, t⟩).1 := by
  have hgen := synced_generate h hv hs hsnap r
  unfold applyServerOverwriteTo
  cases r with
  | nil => exact hgen
  | cons k r =>
    simp only
    split
    · exact hs
    · rw [IndexedFilter.updateChildIn_set hv.server]
      exact hgen

theorem synced_listenComplete (h : CompoundWrite.WF t.visibleWrites) (hv : v.WF)
    (hs : Synced t p v) (r : Path) :
    Synced t p (listenCompleteOldCache v r ⟨p, t⟩).1 := by
  have hgen := synced_generate h hv hs (hv.server.get r) r
  rw [set_get hv.server] at hgen
  unfold listenCompleteOldCache
  simp only [hv.serverAll]
  exact hgen

theorem fst_steps {α : Type} (step : ViewCache → α → ViewCache × Changes) (v : ViewCache)
    (xs : List α) : (steps step v xs).1 = xs.foldl (fun v x => (step v x).1) v := by
  have hrun : ∀ r : ViewCache × Changes,
      (xs.foldl (takeStep step) r).1 = xs.foldl (fun v x => (step v x).1) r.1 := by
    induction xs with
    | nil => exact fun _ => rfl
    | cons x xs ih => exact fun r => ih _
  exact hrun (v, [])

/-- What every step keeps, a number of steps keep. -/
theorem steps_fst {α : Type} {step : ViewCache → α → ViewCache × Changes} {xs : List α}
    (P : ViewCache → Prop) (hstep : ∀ x ∈ xs, ∀ v, P v → P (step v x).1) (hv : P v) :
    P (steps step v xs).1 := by
  rw [fst_steps]
  exact List.foldlRecOn xs _ hv fun v' hv' x hx => hstep x hx v' hv'

theorem synced_applyServerMergeTo (h : CompoundWrite.WF t.visibleWrites) (hv : v.WF)
    (hs : Synced t p v) (r : Path) {m : CompoundWrite} (hm : CompoundWrite.Nodes m) :
    Synced t p (applyServerMergeTo v r m ⟨p, t⟩).1 := by
  unfold applyServerMergeTo
  simp only
  split
  · exact hs
  · have hmerge : CompoundWrite.Nodes
        (if r.isEmpty then m else addCompoundWrite emptyWrite m r) := by
      split
      · exact hm
      · exact Nodes.addCompoundWrite ImmutableTree.All.empty hm r
    have hchild : ∀ x : String × CompoundWrite,
        x ∈ (if r.isEmpty then m else addCompoundWrite emptyWrite m r).children →
          (applyToNode x.2 (v.cachedServerSnap.node.child x.1)).WF := fun x hx =>
      Nodes.applyToNode (hmerge.of_children hx) (hv.server.child x.1)
    refine (steps_fst (fun v => v.WF ∧ Synced t p v) (fun x hx v' hv' => ?_) ⟨hv, hs⟩).2
    have hwf := hchild x (by
      rcases List.mem_append.1 hx with hx | hx <;> exact List.mem_of_mem_filter hx)
    exact ⟨(sound_applyServerOverwriteTo h.nodes hv'.1 _ hwf).wf,
      synced_applyServerOverwriteTo h hv'.1 hv'.2 _ hwf⟩

/-! ## The application writes -/

/-- The event cache after a write at or below the path, when all is shown: the data there is
replaced. -/
theorem userOverwrite_full (hv : v.WF) (hfull : v.cachedEventSnap.isFullyInitialized = true)
    (r : Path) (newData : FNode) (w : WriteTreeRef) (server : Option FNode) :
    (applyUserOverwriteTo v r newData w server).1 =
      v.updateEventSnap (v.cachedEventSnap.node.set r newData) true false := by
  cases r with
  | nil => rfl
  | cons k r =>
    have hchild : v.cachedEventSnap.isCompleteForChild k = true := by
      simp [CacheNode.isCompleteForChild, hfull, hv.eventAll]
    have hnew : overwrittenChild v k r newData w server =
        (v.cachedEventSnap.node.child k).set r newData := by
      cases r with
      | nil => rfl
      | cons j r => simp [overwrittenChild, completeChild, hchild]
    have hset := IndexedFilter.updateChildIn_set hv.event newData k r
    simp only [applyUserOverwriteTo]
    rw [hnew]
    split
    · -- the child was so already
      rename_i hsame
      have hnode : v.cachedEventSnap.node.set (k :: r) newData = v.cachedEventSnap.node := by
        rw [KeyTree.set, ← hsame, setChild_child hv.event]
      rw [hnode, ← hfull, ← hv.eventAll]
      rfl
    · simp only [hset, hfull]

theorem userOverwrite_server (r : Path) (newData : FNode) (w : WriteTreeRef)
    (server : Option FNode) :
    (applyUserOverwriteTo v r newData w server).1.cachedServerSnap = v.cachedServerSnap := by
  unfold applyUserOverwriteTo
  cases r with
  | nil => rfl
  | cons k r =>
    simp only
    split <;> rfl

/-- **A write at or below the path** shows at once. -/
theorem synced_userOverwrite_below {t' : WriteTree} (h : CompoundWrite.WF t.visibleWrites)
    (hv : v.WF) (hs : Synced t p v) {r : Path} {newData : FNode} (hw : Stores (p ++ r, newData))
    (hadd : t'.visibleWrites = addWrite t.visibleWrites newData (p ++ r)) (server : Option FNode) :
    Synced t' p (applyUserOverwriteTo v r newData ⟨p, t'⟩ server).1 := by
  have hM := h.childCompoundWriteAtPath p
  have h' : CompoundWrite.WF t'.visibleWrites := hadd ▸ h.addWrite hw.1 hw.2 (p ++ r)
  have hbelow : childCompoundWriteAtPath t'.visibleWrites p =
      addWrite (childCompoundWriteAtPath t.visibleWrites p) newData r := by
    rw [hadd, childCompoundWriteAtPath_addWrite_below h hw]
  constructor
  · intro hfull
    rw [userOverwrite_server] at hfull ⊢
    obtain ⟨hevent, hnode⟩ := hs.full hfull
    rw [userOverwrite_full hv hevent, WriteTree.shown, hbelow,
      applyToNode_addWrite hM hw.1 hw.2 hv.server]
    exact ⟨rfl, congrArg (·.set r newData) hnode⟩
  · intro n hn
    rw [← value_childCompoundWriteAtPath h', hbelow] at hn
    cases r with
    | nil =>
      cases hn
      exact ⟨rfl, rfl⟩
    | cons k r =>
      -- the path was overwritten before
      rw [value_addWrite_cons hM, value_childCompoundWriteAtPath h, Option.map_eq_some_iff] at hn
      obtain ⟨m, hm, rfl⟩ := hn
      obtain ⟨hevent, hnode⟩ := hs.hidden m hm
      rw [userOverwrite_full hv hevent, hnode]
      exact ⟨rfl, rfl⟩

/-- **A write at or above the path** shows at once. -/
theorem synced_userOverwrite_above {t' : WriteTree} (h : CompoundWrite.WF t.visibleWrites)
    {q r : Path} {newData : FNode} (hw : Stores (q, newData))
    (hadd : t'.visibleWrites = addWrite t.visibleWrites newData q) (server : Option FNode) :
    Synced t' (q ++ r) (applyUserOverwriteTo v [] (newData.get r) ⟨q ++ r, t'⟩ server).1 := by
  have h' : CompoundWrite.WF t'.visibleWrites := hadd ▸ h.addWrite hw.1 hw.2 q
  have habove : childCompoundWriteAtPath t'.visibleWrites (q ++ r) =
      initWithValue (newData.get r) := by
    rw [hadd, childCompoundWriteAtPath_addWrite_above h hw]
  constructor
  · intro _
    rw [WriteTree.shown, habove]
    exact ⟨rfl, rfl⟩
  · intro n hn
    rw [← value_childCompoundWriteAtPath h', habove] at hn
    cases hn
    exact ⟨rfl, rfl⟩

/-! ## The server answers -/

/-- The server data that the acknowledgement of a write below shows again. -/
theorem ackUserWriteOn_cons (hv : v.WF)
    (hfull : v.cachedServerSnap.isFullyInitialized = true)
    (hevent : v.cachedEventSnap.isFullyInitialized = true) {k : String} {r : Path}
    (hp : completeNodeAtPath t.visibleWrites (p ++ k :: r) = none) :
    (ackUserWriteOn v (k :: r) (initWithValue ()) ⟨p, t⟩).1 =
      v.updateEventSnap (v.cachedEventSnap.node.set (k :: r)
        (t.shown (p ++ k :: r) (v.cachedServerSnap.node.get (k :: r)))) true false := by
  have hpath : v.cachedServerSnap.isCompleteForPath (k :: r) = true := by
    simp [CacheNode.isCompleteForPath, CacheNode.isCompleteForChild, hfull, hv.serverAll]
  have hsame : (v.updateServerSnap (v.cachedServerSnap.node.set (k :: r)
      (v.cachedServerSnap.node.get (k :: r))) true false) = v := by
    rw [set_get hv.server, ← hfull, ← hv.serverAll]
    rfl
  have hgen := generate_cons hv hevent hp
  simp only [ackUserWriteOn, WriteTreeRef.shadowingWriteAtPath, shadowingWriteAtPath, hp,
    Option.isSome_none, Bool.false_eq_true, ↓reduceIte, initWithValue, value_mk,
    Option.isSome_some, hpath, Bool.or_true, applyServerOverwriteTo, Bool.not_true, Bool.false_and,
    IndexedFilter.updateChildIn_set hv.server, hfull, Bool.true_or, hsame, hgen]

/-- Complete server data of a path below is not made by server data there. -/
theorem applyServerOverwriteTo_cons_full (k : String) (r : Path) (snap : FNode)
    (w : WriteTreeRef) :
    (applyServerOverwriteTo v (k :: r) snap w).1.cachedServerSnap.isFullyInitialized =
      v.cachedServerSnap.isFullyInitialized := by
  unfold applyServerOverwriteTo
  simp only
  split
  · rfl
  · rw [generate_server]
    exact Bool.or_false _

theorem applyServerMergeTo_full (r : Path) (m : CompoundWrite) (w : WriteTreeRef) :
    (applyServerMergeTo v r m w).1.cachedServerSnap.isFullyInitialized =
      v.cachedServerSnap.isFullyInitialized := by
  unfold applyServerMergeTo
  simp only
  split
  · rfl
  · refine steps_fst (fun v' => v'.cachedServerSnap.isFullyInitialized =
      v.cachedServerSnap.isFullyInitialized) (fun x _ v' hv' => ?_) rfl
    rw [applyServerOverwriteTo_cons_full, hv']

/-- While the server data is not complete, an acknowledgement does not complete it. -/
theorem ackUserWriteOn_full (hfull : v.cachedServerSnap.isFullyInitialized = false) (r : Path)
    (w : WriteTreeRef) :
    (ackUserWriteOn v r (initWithValue ()) w).1.cachedServerSnap.isFullyInitialized = false := by
  unfold ackUserWriteOn
  split
  · exact hfull
  · cases r with
    | nil =>
      simp only [initWithValue, value_mk, Option.isSome_some, ↓reduceIte, hfull, Bool.and_false,
        CacheNode.isCompleteForPath, Bool.false_and, Bool.or_self, Bool.false_eq_true,
        List.isEmpty_nil]
      rw [applyServerMergeTo_full, hfull]
    | cons k r =>
      simp only [initWithValue, value_mk, Option.isSome_some, ↓reduceIte, List.isEmpty_cons,
        Bool.false_and, Bool.false_or, Bool.false_eq_true]
      split
      · rw [applyServerOverwriteTo_cons_full, hfull]
      · exact hfull

/-- At the path itself an answer shows the server data again. -/
theorem ackUserWriteOn_nil (h : CompoundWrite.WF t.visibleWrites) (hv : v.WF)
    (hfull : v.cachedServerSnap.isFullyInitialized = true)
    (hp : completeNodeAtPath t.visibleWrites p = none) :
    (ackUserWriteOn v [] (initWithValue ()) ⟨p, t⟩).1 =
      v.updateEventSnap (t.shown p v.cachedServerSnap.node) true false := by
  have hsame : v.updateServerSnap v.cachedServerSnap.node true false = v := by
    rw [← hfull, ← hv.serverAll]
    rfl
  have hgen := generate_nil h hv hfull hp
  simp only [ackUserWriteOn, WriteTreeRef.shadowingWriteAtPath, shadowingWriteAtPath,
    List.append_nil, hp, Option.isSome_none, Bool.false_eq_true, ↓reduceIte, initWithValue,
    value_mk, Option.isSome_some, List.isEmpty_nil, hfull, Bool.and_true, Bool.true_or, get_nil,
    applyServerOverwriteTo, IndexedFilter.updateFullNode_fst, hsame, hgen]

theorem revertUserWriteOn_nil (h : CompoundWrite.WF t.visibleWrites)
    (hfull : v.cachedServerSnap.isFullyInitialized = true)
    (hp : completeNodeAtPath t.visibleWrites p = none) :
    (revertUserWriteOn v [] ⟨p, t⟩).1 =
      v.updateEventSnap (t.shown p v.cachedServerSnap.node) true false := by
  have hsnap : v.completeServerSnap = some v.cachedServerSnap.node := by
    simp [ViewCache.completeServerSnap, hfull]
  simp only [revertUserWriteOn, WriteTreeRef.shadowingWriteAtPath, shadowingWriteAtPath,
    List.append_nil, hp, Option.isSome_none, Bool.false_eq_true, ↓reduceIte, hfull,
    WriteTreeRef.calculateCompleteEventCache, hsnap, calculateCompleteEventCache_some h,
    Option.getD_some, IndexedFilter.updateFullNode_fst, Bool.true_or]

theorem revertUserWriteOn_server (r : Path) (w : WriteTreeRef) :
    (revertUserWriteOn v r w).1.cachedServerSnap = v.cachedServerSnap := by
  unfold revertUserWriteOn
  split <;> rfl

/-- The event cache before the answer, as the one after it with the write. -/
theorem shown_of_removed {t' : WriteTree} (h : CompoundWrite.WF t'.visibleWrites) {s : FNode}
    (hs : s.WF) {r : Path} {newData : FNode} (hw : newData.WF ∧ newData.isEmpty = false)
    (hadd : t.visibleWrites = addWrite t'.visibleWrites newData (p ++ r)) :
    t.shown p s = (t'.shown p s).set r newData := by
  rw [WriteTree.shown, hadd, childCompoundWriteAtPath_addWrite_below h hw,
    applyToNode_addWrite (h.childCompoundWriteAtPath p) hw.1 hw.2 hs]
  rfl

/-- The child that an answer shows. -/
theorem revertedChild_eq (h : CompoundWrite.WF t.visibleWrites) (hv : v.WF)
    (hfull : v.cachedServerSnap.isFullyInitialized = true) (p : Path) (k : String) (r : Path) :
    revertedChild v k r ⟨p, t⟩ = IndexedFilter.updateChildIn v.cachedEventSnap.node k
      ((t.shown p v.cachedServerSnap.node).child k) r := by
  have hchild : v.cachedServerSnap.isCompleteForChild k = true := by
    simp [CacheNode.isCompleteForChild, hfull, hv.serverAll]
  simp only [revertedChild, WriteTreeRef.calculateCompleteChild,
    calculateCompleteChild_complete h p hchild, child_shown h p k hv.server]

/-- Taking back a child that replaced a leaf gives the leaf back, and any other child is as it
was. -/
theorem restoreLeaf_fst {w : WriteTreeRef} {z : FNode × Changes} {x c : FNode} {k : String}
    (hfull : v.cachedServerSnap.isFullyInitialized = true)
    (hcalc : w.calculateCompleteEventCache v.completeServerSnap = some x) (hx : x.WF) (hc : c.WF)
    (hne : c.isEmpty = false) (hz : z.1 = (x.setChild k c).setChild k (x.child k)) :
    (restoreLeaf v w z).1 = x := by
  obtain ⟨y, changes⟩ := z
  change y = _ at hz
  simp only [restoreLeaf, hfull, Bool.and_true, hcalc]
  cases x with
  | node cs =>
    rw [setChild_setChild_child hx rfl k hc] at hz
    rw [hz]
    split <;> rfl
  | leaf a =>
    have hempty : y.isEmpty = true := by
      rw [hz]
      simp [setChild, hne, KeyTree.put, KeyTree.empty, SortedMap.insert, SortedMap.erase]
    rw [if_pos hempty]
    rfl

/-- **A write below that is taken back** leaves what is shown without it. -/
theorem revertUserWriteOn_cons {t' : WriteTree} (h' : CompoundWrite.WF t'.visibleWrites)
    (hv : v.WF) (hfull : v.cachedServerSnap.isFullyInitialized = true) {k : String} {r : Path}
    {newData : FNode} (hw : newData.WF ∧ newData.isEmpty = false)
    (hnode : v.cachedEventSnap.node =
      (t'.shown p v.cachedServerSnap.node).set (k :: r) newData)
    (hp : completeNodeAtPath t'.visibleWrites (p ++ k :: r) = none) :
    (revertUserWriteOn v (k :: r) ⟨p, t'⟩).1 =
      v.updateEventSnap (t'.shown p v.cachedServerSnap.node) true false := by
  have hsnap : v.completeServerSnap = some v.cachedServerSnap.node := by
    simp [ViewCache.completeServerSnap, hfull]
  have hx := WriteTree.WF.shown h' p hv.server
  have hcalc : (WriteTreeRef.mk p t').calculateCompleteEventCache v.completeServerSnap =
      some (t'.shown p v.cachedServerSnap.node) := by
    rw [WriteTreeRef.calculateCompleteEventCache, hsnap, calculateCompleteEventCache_some h']
  have hupdate : (revertedChild v k r ⟨p, t'⟩).1 =
      v.cachedEventSnap.node.setChild k ((t'.shown p v.cachedServerSnap.node).child k) := by
    rw [revertedChild_eq h' hv hfull]
    refine IndexedFilter.updateChildIn_fst hv.event fun hget => ?_
    rw [hnode, KeyTree.set, child_setChild_self, get_set_self] at hget
    rw [hnode, KeyTree.set, child_setChild_self, hget, set_get (hx.child k)]
  have hrestore : (restoreLeaf v ⟨p, t'⟩ (revertedChild v k r ⟨p, t'⟩)).1 =
      t'.shown p v.cachedServerSnap.node :=
    restoreLeaf_fst hfull hcalc hx ((hx.child k).set r hw.1) (isEmpty_set hw.2)
      (by rw [hupdate, hnode]; rfl)
  simp only [revertUserWriteOn, WriteTreeRef.shadowingWriteAtPath, shadowingWriteAtPath, hp,
    Option.isSome_none, Bool.false_eq_true, ↓reduceIte, hfull, Bool.true_or, hrestore]

/-- A view that shows what there is without the write. -/
theorem synced_of_eq {t' : WriteTree} (hp : completeNodeAtPath t'.visibleWrites p = none)
    {v' : ViewCache} (hserver : v'.cachedServerSnap = v.cachedServerSnap)
    (hevent : v.cachedServerSnap.isFullyInitialized = true →
      v'.cachedEventSnap = ⟨t'.shown p v.cachedServerSnap.node, true, false⟩) :
    Synced t' p v' := by
  constructor
  · intro hfull
    rw [hserver] at hfull ⊢
    rw [hevent hfull]
    exact ⟨rfl, rfl⟩
  · intro n hn
    rw [hp] at hn
    cases hn

/-- Without complete server data there is nothing to show. -/
theorem synced_of_open {t' : WriteTree} (hp : completeNodeAtPath t'.visibleWrites p = none)
    {v' : ViewCache} (hfull : v'.cachedServerSnap.isFullyInitialized = false) :
    Synced t' p v' := by
  constructor
  · intro hf
    rw [hfull] at hf
    cases hf
  · intro n hn
    rw [hp] at hn
    cases hn

/-- **An answer to a write below that the server refused**. -/
theorem synced_revertBelow {t' : WriteTree} (h' : CompoundWrite.WF t'.visibleWrites) (hv : v.WF)
    (hs : Synced t p v) {r : Path} (hrem : Removed t t' (p ++ r)) :
    Synced t' p (revertUserWriteOn v r ⟨p, t'⟩).1 := by
  obtain ⟨newData, hw, hadd⟩ := hrem.write
  have hp : completeNodeAtPath t'.visibleWrites p = none :=
    completeNodeAtPath_eq_none h' (by rw [hrem.bare]; rfl)
  refine synced_of_eq hp (revertUserWriteOn_server r _) fun hfull => ?_
  cases r with
  | nil => rw [revertUserWriteOn_nil h' hfull hp]; rfl
  | cons k r =>
    obtain ⟨hevent, hnode⟩ := hs.full hfull
    rw [shown_of_removed h' hv.server hw hadd] at hnode
    rw [revertUserWriteOn_cons h' hv hfull hw hnode hrem.bare]
    rfl

/-- **An answer to a write below that the server accepted**. -/
theorem synced_ackBelow {t' : WriteTree} (h' : CompoundWrite.WF t'.visibleWrites) (hv : v.WF)
    (hs : Synced t p v) {r : Path} (hrem : Removed t t' (p ++ r))
    (hleaf : v.cachedServerSnap.isFullyInitialized = true →
      (t'.shown p v.cachedServerSnap.node).belowLeaf r = false) :
    Synced t' p (ackUserWriteOn v r (initWithValue ()) ⟨p, t'⟩).1 := by
  obtain ⟨newData, hw, hadd⟩ := hrem.write
  have hp : completeNodeAtPath t'.visibleWrites p = none :=
    completeNodeAtPath_eq_none h' (by rw [hrem.bare]; rfl)
  cases hfull : v.cachedServerSnap.isFullyInitialized with
  | false => exact synced_of_open hp (ackUserWriteOn_full hfull r _)
  | true =>
    obtain ⟨hevent, hnode⟩ := hs.full hfull
    have hx := WriteTree.WF.shown h' p hv.server
    rw [shown_of_removed h' hv.server hw hadd] at hnode
    cases r with
    | nil =>
      rw [ackUserWriteOn_nil h' hv hfull hp]
      exact synced_of_eq hp rfl fun _ => rfl
    | cons k r =>
      rw [ackUserWriteOn_cons hv hfull hevent hrem.bare, hnode, ← get_shown h' p (k :: r) hv.server,
        (set_set_get_iff hx hw.1 hw.2 (k :: r)).2 (hleaf hfull)]
      exact synced_of_eq hp rfl fun _ => rfl

/-- **An answer to a write at or above the path**. -/
theorem synced_answer_above {t' : WriteTree} (h : CompoundWrite.WF t.visibleWrites)
    (h' : CompoundWrite.WF t'.visibleWrites) {q r : Path} (hv : v.WF) (hs : Synced t (q ++ r) v)
    (hrem : Removed t t' q) (revert : Bool) :
    Synced t' (q ++ r) (if revert then revertUserWriteOn v [] ⟨q ++ r, t'⟩
      else ackUserWriteOn v [] (initWithValue ()) ⟨q ++ r, t'⟩).1 := by
  cases hp : completeNodeAtPath t'.visibleWrites (q ++ r) with
  | some n =>
    -- a later write hides the path
    have hsame : (if revert then revertUserWriteOn v [] ⟨q ++ r, t'⟩
        else ackUserWriteOn v [] (initWithValue ()) ⟨q ++ r, t'⟩) = (v, []) := by
      cases revert <;> simp [revertUserWriteOn, ackUserWriteOn,
        WriteTreeRef.shadowingWriteAtPath, shadowingWriteAtPath, hp]
    rw [hsame]
    exact hs.congr h h' (hrem.below (q ++ r) (by rw [hp]; rfl) (List.prefix_append q r))
  | none =>
    cases revert with
    | true =>
      refine synced_of_eq hp (revertUserWriteOn_server [] _) fun hfull => ?_
      show (revertUserWriteOn v [] ⟨q ++ r, t'⟩).1.cachedEventSnap = _
      rw [revertUserWriteOn_nil h' hfull hp]
      rfl
    | false =>
      cases hfull : v.cachedServerSnap.isFullyInitialized with
      | false => exact synced_of_open hp (ackUserWriteOn_full hfull [] _)
      | true =>
        show Synced t' (q ++ r) (ackUserWriteOn v [] (initWithValue ()) ⟨q ++ r, t'⟩).1
        rw [ackUserWriteOn_nil h' hv hfull hp]
        exact synced_of_eq hp rfl fun _ => rfl

/-- A write elsewhere, or its removal, makes no difference. -/
theorem synced_apart {t' : WriteTree} (h' : CompoundWrite.WF t'.visibleWrites)
    (h : CompoundWrite.WF t.visibleWrites) (hs : Synced t p v) {q : Path} {newData : FNode}
    (hw : newData.WF ∧ newData.isEmpty = false) (hap : Apart q p)
    (hadd : t'.visibleWrites = addWrite t.visibleWrites newData q ∨
      t.visibleWrites = addWrite t'.visibleWrites newData q) : Synced t' p v := by
  refine hs.congr h h' ?_
  rcases hadd with hadd | hadd
  · rw [hadd, childCompoundWriteAtPath_addWrite h hw hap]
  · rw [hadd, childCompoundWriteAtPath_addWrite h' hw hap]

end ViewProcessor

end Firebase
