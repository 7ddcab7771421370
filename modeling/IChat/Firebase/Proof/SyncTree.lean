import IChat.Firebase.Proof.Synced
import IChat.Firebase.SyncTree

/-!
# Operations reach the views they concern

`operationForPath p op` is the operation `op` as the location `p` sees it. The sync tree passes it
to the view there if the path of the operation is above or below `p`, and to no other
(`passed_applyOperationToSyncPoints`); the events it returns are those of the views.
-/

open SortedMap KeyTree ImmutableTree

namespace Firebase

open FPath CompoundWrite WriteTree

/-- An operation, relative to a path. -/
def Operation.operationForPath : Path → Operation → Option Operation
  | [], op => some op
  | k :: p, op => (op.operationForChild k).bind (operationForPath p)

/-- The events of a location. -/
def eventsAt (p : Path) (events : List DataEvent) : List DataEvent :=
  events.filter fun e => e.path == p

@[simp] theorem eventsAt_nil (p : Path) : eventsAt p [] = [] := rfl

theorem eventsAt_append (p : Path) (es es' : List DataEvent) :
    eventsAt p (es ++ es') = eventsAt p es ++ eventsAt p es' := List.filter_append es es'

theorem eventsAt_eq_nil {p : Path} {es : List DataEvent} (h : ∀ e ∈ es, e.path ≠ p) :
    eventsAt p es = [] := by
  apply List.filter_eq_nil_iff.2
  intro e he
  simpa using h e he

theorem eventsAt_eq_self {p : Path} {es : List DataEvent} (h : ∀ e ∈ es, e.path = p) :
    eventsAt p es = es := by
  apply List.filter_eq_self.2
  intro e he
  simpa using h e he

/-! ## One view -/

namespace View

theorem path_generateEvents (v : View) (value : Option FNode) (registrations : List Nat) :
    ∀ e ∈ v.generateEvents value registrations, e.path = v.path := by
  intro e he
  cases value with
  | none => cases he
  | some snapshot =>
    obtain ⟨h, -, rfl⟩ := List.mem_map.1 he
    rfl

theorem path_applyOperation (v : View) (op : Operation) (w : WriteTreeRef)
    (server : Option FNode) : ∀ e ∈ (v.applyOperation op w server).2, e.path = v.path :=
  path_generateEvents v _ _

end View

/-- What becomes of a sync point that an operation may have been passed to, and its events. -/
def Passed (w : WriteTreeRef) (syncPoint : Option View) (op : Option Operation)
    (syncPoint' : Option View) (events : List DataEvent) : Prop :=
  match syncPoint, op with
  | some v, some op => ∃ server : Option FNode, (∀ n ∈ server, n.WF) ∧
      syncPoint' = some (v.applyOperation op w server).1 ∧
        events = (v.applyOperation op w server).2
  | syncPoint, _ => syncPoint' = syncPoint ∧ events = []

theorem passed_none (w : WriteTreeRef) (op : Option Operation) : Passed w none op none [] :=
  ⟨rfl, rfl⟩

theorem passed_no_operation (w : WriteTreeRef) (syncPoint : Option View) :
    Passed w syncPoint none syncPoint [] := by
  cases syncPoint <;> exact ⟨rfl, rfl⟩

/-- The sync points below a path know where they are, and their caches are well-formed. -/
structure ViewsWF (base : Path) (tree : ImmutableTree String View) : Prop where
  ordered : Ordered tree
  views : ∀ p v, tree.valueAtPath p = some v → v.path = base ++ p ∧ v.viewCache.WF

theorem ViewsWF.of_child {base : Path} {tree : ImmutableTree String View} (h : ViewsWF base tree)
    (k : String) : ViewsWF (base ++ [k]) (tree.child k) where
  ordered := h.ordered.of_child k
  views p v hv := by
    have hv := h.views (k :: p) v (by rwa [valueAtPath_cons])
    rwa [List.append_assoc]

namespace SyncTree

theorem wf_resolveServerCache {base : Path} {tree : ImmutableTree String View}
    (h : ViewsWF base tree) {server : Option FNode} (hs : ∀ n ∈ server, n.WF) :
    ∀ n ∈ resolveServerCache tree.value server, n.WF := by
  intro n hn
  cases server with
  | some s => exact hs n hn
  | none =>
    obtain ⟨v, hv, hn⟩ := Option.bind_eq_some_iff.1 hn
    obtain ⟨s, hs, rfl⟩ := Option.map_eq_some_iff.1 hn
    rw [← valueAtPath_nil] at hv
    exact ViewProcessor.wf_completeServerSnap (h.views [] v hv).2 s hs

theorem passed_applyToSyncPoint {base : Path} {tree : ImmutableTree String View}
    (h : ViewsWF base tree) (op : Operation) {server : Option FNode} (hs : ∀ n ∈ server, n.WF)
    (w : WriteTreeRef) :
    Passed w tree.value (some op) (applyToSyncPoint tree.value op server w).1
        (applyToSyncPoint tree.value op server w).2 ∧
      ∀ e ∈ (applyToSyncPoint tree.value op server w).2, e.path = base := by
  cases hv : tree.value with
  | none => exact ⟨passed_none w _, nofun⟩
  | some v =>
    refine ⟨⟨server, hs, rfl, rfl⟩, fun e he => ?_⟩
    rw [View.path_applyOperation v op w server e he, (h.views [] v (by rwa [valueAtPath_nil])).1,
      List.append_nil]

/-! ## Descendants -/

/-- What the operation makes of a child. -/
def childResult (op : Operation) (server : Option FNode) (w : WriteTreeRef) (childKey : String)
    (childTree : ImmutableTree String View) : ImmutableTree String View × List DataEvent :=
  match op.operationForChild childKey with
  | some childOperation =>
    applyOperationDescendantsHelper childOperation (server.map (·.child childKey))
      (w.childWriteTreeRef childKey) childTree
  | none => (childTree, [])

theorem applyOperationChildren_eq (op : Operation) (server : Option FNode) (w : WriteTreeRef)
    (cs : List (String × ImmutableTree String View)) :
    applyOperationChildren op server w cs =
      (cs.map fun x => (x.1, (childResult op server w x.1 x.2).1),
        cs.flatMap fun x => (childResult op server w x.1 x.2).2) := by
  induction cs with
  | nil => rfl
  | cons x cs ih =>
    obtain ⟨k, c⟩ := x
    rw [applyOperationChildren, ih]
    rfl

theorem find_map_keys (f : String → ImmutableTree String View → ImmutableTree String View)
    (k : String) (cs : List (String × ImmutableTree String View)) :
    find k (cs.map fun x => (x.1, f x.1 x.2)) = (find k cs).map (f k) := by
  induction cs with
  | nil => rfl
  | cons x cs ih =>
    obtain ⟨j, c⟩ := x
    simp only [List.map_cons, find, ih]
    split
    · rename_i hk
      rw [hk]
      rfl
    · rfl

/-- The events of a location below a child are that child's. -/
theorem eventsAt_flatMap {base : Path} {f : String × ImmutableTree String View → List DataEvent}
    {cs : List (String × ImmutableTree String View)} (hs : Sorted cs)
    (hf : ∀ x ∈ cs, ∀ e ∈ f x, base ++ [x.1] <+: e.path) (k : String) (p : Path) :
    eventsAt (base ++ k :: p) (cs.flatMap f) =
      ((find k cs).map fun c => eventsAt (base ++ k :: p) (f (k, c))).getD [] := by
  have hother : ∀ x ∈ cs, x.1 ≠ k → eventsAt (base ++ k :: p) (f x) = [] := by
    intro x hx hne
    refine eventsAt_eq_nil fun e he heq => ?_
    have hpre := hf x hx e he
    rw [heq, List.prefix_append_right_inj] at hpre
    exact hne (List.cons_prefix_cons.1 hpre).1
  induction cs with
  | nil => rfl
  | cons x cs ih =>
    obtain ⟨hx, hst⟩ := List.pairwise_cons.1 hs
    have htail := ih hst (fun y hy => hf y (.tail _ hy)) fun y hy => hother y (.tail _ hy)
    rw [List.flatMap_cons, eventsAt_append, htail]
    obtain ⟨j, c⟩ := x
    rw [find]
    by_cases hk : k = j
    · subst hk
      have hnone : find k cs = none := find_eq_none.2 fun y hy => (hx y hy).ne'
      simp [hnone]
    · rw [hother (j, c) (.head _) (Ne.symm hk), if_neg hk, List.nil_append]

/-- What a tree and its events are after an operation: the views get what concerns them. -/
structure Dispatched (base : Path) (t : WriteTree) (op : Path → Option Operation)
    (tree : ImmutableTree String View) (r : ImmutableTree String View × List DataEvent) :
    Prop where
  ordered : Ordered r.1
  below : ∀ e ∈ r.2, base <+: e.path
  passed : ∀ p, Passed ⟨base ++ p, t⟩ (tree.valueAtPath p) (op p) (r.1.valueAtPath p)
    (eventsAt (base ++ p) r.2)

theorem dispatched_none {base : Path} (t : WriteTree) {tree : ImmutableTree String View}
    (h : Ordered tree) : Dispatched base t (fun _ => none) tree (tree, []) where
  ordered := h
  below := nofun
  passed _ := passed_no_operation _ _

/-- A node after its children and its sync point. -/
theorem Dispatched.node {base : Path} {t : WriteTree} {op : Operation}
    {ops : Path → Option Operation} (hop : ops [] = some op)
    {v : Option View} {cs cs' : List (String × ImmutableTree String View)}
    {events : List DataEvent} (h : ViewsWF base (.mk v cs)) (hsorted : Sorted cs')
    (hordered : ∀ k c, (k, c) ∈ cs' → Ordered c)
    (hbelow : ∀ e ∈ events, ∃ k, base ++ [k] <+: e.path)
    (hpassed : ∀ k p, Passed ⟨base ++ k :: p, t⟩ ((ImmutableTree.mk v cs).valueAtPath (k :: p))
      (ops (k :: p)) ((ImmutableTree.mk v cs').valueAtPath (k :: p))
      (eventsAt (base ++ k :: p) events))
    {server : Option FNode} (hserver : ∀ n ∈ server, n.WF) :
    Dispatched base t ops (.mk v cs)
      (.mk (applyToSyncPoint v op server ⟨base, t⟩).1 cs',
        events ++ (applyToSyncPoint v op server ⟨base, t⟩).2) := by
  obtain ⟨hroot, hpath⟩ := passed_applyToSyncPoint h op hserver ⟨base, t⟩
  rw [value_mk] at hroot hpath
  refine ⟨.mk hsorted hordered, fun e he => ?_, fun p => ?_⟩
  · rcases List.mem_append.1 he with he | he
    · obtain ⟨k, hk⟩ := hbelow e he
      exact (List.prefix_append base [k]).trans hk
    · rw [hpath e he]
  · rw [eventsAt_append]
    cases p with
    | nil =>
      have hchildren : eventsAt (base ++ []) events = [] := by
        refine eventsAt_eq_nil fun e he heq => ?_
        obtain ⟨k, hk⟩ := hbelow e he
        rw [heq, List.prefix_append_right_inj, List.prefix_nil] at hk
        cases hk
      rw [hchildren, List.nil_append, List.append_nil, eventsAt_eq_self hpath, valueAtPath_nil,
        valueAtPath_nil, hop]
      exact hroot
    | cons k p =>
      have hmore : eventsAt (base ++ k :: p) (applyToSyncPoint v op server ⟨base, t⟩).2 = [] := by
        refine eventsAt_eq_nil fun e he heq => ?_
        rw [hpath e he, List.self_eq_append_right] at heq
        cases heq
      rw [hmore, List.append_nil]
      exact hpassed k p

theorem dispatched_descendants {tree : ImmutableTree String View} (ho : Ordered tree)
    {base : Path} (t : WriteTree) (op : Operation) (h : ViewsWF base tree)
    {server : Option FNode} (hserver : ∀ n ∈ server, n.WF) :
    Dispatched base t (fun p => op.operationForPath p) tree
      (applyOperationDescendantsHelper op server ⟨base, t⟩ tree) := by
  induction ho generalizing base op server with
  | @mk v cs hs hc ih =>
    have hserver' := wf_resolveServerCache h hserver
    rw [value_mk] at hserver'
    rw [applyOperationDescendantsHelper, applyOperationChildren_eq]
    have hchild : ∀ k c, find k cs = some c → Dispatched (base ++ [k]) t
        (fun p => op.operationForPath (k :: p)) c
          (childResult op (resolveServerCache v server) ⟨base, t⟩ k c) := by
      intro k c hf
      have hm := mem_of_find hf
      have hc' : ViewsWF (base ++ [k]) c := by
        have hc' := h.of_child k
        rwa [child_mk, hf] at hc'
      unfold childResult
      cases hop : op.operationForChild k with
      | none =>
        simp only [Operation.operationForPath, hop, Option.bind_none]
        exact dispatched_none t (hc k c hm)
      | some op' =>
        have hchildServer : ∀ n ∈ (resolveServerCache v server).map (·.child k), n.WF := by
          intro n hn
          obtain ⟨m, hm, rfl⟩ := Option.map_eq_some_iff.1 hn
          exact (hserver' m hm).child k
        simp only [Operation.operationForPath, hop, Option.bind_some]
        exact ih k c hm op' hc' hchildServer
    have hfind : ∀ x ∈ cs, find x.1 cs = some x.2 := fun x hx => find_of_mem hs hx
    refine Dispatched.node rfl h ?_ ?_ ?_ ?_ hserver'
    · exact List.pairwise_map.2 hs
    · intro k c hm
      obtain ⟨x, hx, he⟩ := List.mem_map.1 hm
      cases he
      exact (hchild x.1 x.2 (hfind x hx)).ordered
    · intro e he
      obtain ⟨x, hx, he⟩ := List.mem_flatMap.1 he
      exact ⟨x.1, (hchild x.1 x.2 (hfind x hx)).below e he⟩
    · intro k p
      rw [valueAtPath_cons, valueAtPath_cons, child_mk, child_mk, find_map_keys fun k c =>
          (childResult op (resolveServerCache v server) ⟨base, t⟩ k c).1,
        eventsAt_flatMap hs fun x hx e he => (hchild x.1 x.2 (hfind x hx)).below e he]
      rcases Option.eq_none_or_eq_some (find k cs) with hf | ⟨c, hf⟩
      · rw [hf, Option.map_none, Option.map_none, Option.getD_none, valueAtPath_empty]
        exact passed_none _ _
      · have hp := (hchild k c hf).passed p
        rw [List.append_assoc] at hp
        rw [hf, Option.map_some, Option.map_some, Option.getD_some, Option.getD_some]
        exact hp

/-! ## On the way to the path -/

/-- The operation with a path, as a location above or below the path sees it. -/
def concerning (path : Path) (op : Operation) (p : Path) : Option Operation :=
  if path <+: p ∨ p <+: path then op.operationForPath p else none

theorem concerning_nil (op : Operation) (p : Path) :
    concerning [] op p = op.operationForPath p := if_pos (.inl List.nil_prefix)

theorem concerning_cons (k : String) (path : Path) (op : Operation) (p : Path) :
    concerning (k :: path) op (k :: p) =
      (op.operationForChild k).bind fun op' => concerning path op' p := by
  simp only [concerning, List.cons_prefix_cons, true_and, Operation.operationForPath]
  split
  · rfl
  · cases op.operationForChild k <;> rfl

theorem concerning_ne {j k : String} (hne : j ≠ k) (path : Path) (op : Operation) (p : Path) :
    concerning (k :: path) op (j :: p) = none := by
  simp [concerning, List.cons_prefix_cons, hne, Ne.symm hne]

/-- Children that no operation reaches stay as they are. -/
theorem passed_unchanged {base : Path} {t : WriteTree} {v : Option View}
    {cs : List (String × ImmutableTree String View)} {ops : Path → Option Operation}
    (h : ∀ j p, (ImmutableTree.mk v cs).valueAtPath (j :: p) = none ∨ ops (j :: p) = none)
    (j : String) (p : Path) :
    Passed ⟨base ++ j :: p, t⟩ ((ImmutableTree.mk v cs).valueAtPath (j :: p)) (ops (j :: p))
      ((ImmutableTree.mk v cs).valueAtPath (j :: p)) (eventsAt (base ++ j :: p) []) := by
  rcases h j p with hnone | hnone
  · rw [hnone]
    exact passed_none _ _
  · rw [hnone]
    exact passed_no_operation _ _

theorem dispatched_helper (path : Path) {base : Path} (t : WriteTree)
    {tree : ImmutableTree String View} (op : Operation) (h : ViewsWF base tree)
    {server : Option FNode} (hserver : ∀ n ∈ server, n.WF) :
    Dispatched base t (concerning path op) tree
      (applyOperationHelper path op server ⟨base, t⟩ tree) := by
  induction path generalizing base op server tree with
  | nil =>
    have hd := dispatched_descendants h.ordered t op h hserver
    rw [show concerning [] op = fun p => op.operationForPath p from funext (concerning_nil op)]
    unfold applyOperationHelper
    exact hd
  | cons k path ih =>
    obtain ⟨v, cs⟩ := tree
    have hserver' := wf_resolveServerCache h hserver
    rw [value_mk] at hserver'
    have hroot : concerning (k :: path) op [] = some op := if_pos (.inr List.nil_prefix)
    have hsorted : Sorted cs := by cases h.ordered; assumption
    have hordered : ∀ k c, (k, c) ∈ cs → Ordered c := by cases h.ordered; assumption
    rw [applyOperationHelper]
    cases hf : find k cs with
    | none =>
      refine Dispatched.node hroot h hsorted hordered (fun e he => by cases he)
        (passed_unchanged fun j p => ?_) hserver'
      by_cases hj : j = k
      · left
        rw [hj, valueAtPath_cons, child_mk, hf]
        exact valueAtPath_empty p
      · exact .inr (concerning_ne hj path op p)
    | some c =>
      have hm := mem_of_find hf
      cases hop : op.operationForChild k with
      | none =>
        refine Dispatched.node hroot h hsorted hordered (fun e he => by cases he)
          (passed_unchanged fun j p => .inr ?_) hserver'
        by_cases hj : j = k
        · rw [hj, concerning_cons, hop]
          rfl
        · exact concerning_ne hj path op p
      | some op' =>
        have hc : ViewsWF (base ++ [k]) c := by
          have hc := h.of_child k
          rwa [child_mk, hf] at hc
        have hchildServer : ∀ n ∈ (resolveServerCache v server).map (·.child k), n.WF := by
          intro n hn
          obtain ⟨m, hm, rfl⟩ := Option.map_eq_some_iff.1 hn
          exact (hserver' m hm).child k
        have hd := ih op' hc hchildServer
        refine Dispatched.node hroot h (hsorted.insert k _) ?_ ?_ ?_ hserver'
        · intro j d hjd
          rcases mem_insert hjd with he | hjd
          · cases he
            exact hd.ordered
          · exact hordered j d hjd
        · exact fun e he => ⟨k, hd.below e he⟩
        · intro j p
          rw [valueAtPath_cons, valueAtPath_cons, child_mk, child_mk, find_insert]
          by_cases hj : j = k
          · subst hj
            have hp := hd.passed p
            rw [List.append_assoc] at hp
            rw [if_pos rfl, hf, concerning_cons, hop]
            exact hp
          · have hno : eventsAt (base ++ j :: p) (applyOperationHelper path op'
                ((resolveServerCache v server).map (·.child k))
                ((WriteTreeRef.mk base t).childWriteTreeRef k) c).2 = [] := by
              refine eventsAt_eq_nil fun e he heq => ?_
              have hpre := hd.below e he
              rw [heq, List.prefix_append_right_inj] at hpre
              exact hj (List.cons_prefix_cons.1 hpre).1.symm
            rw [if_neg hj, concerning_ne hj]
            show Passed _ _ none _ (eventsAt (base ++ j :: p) (applyOperationHelper path op'
                ((resolveServerCache v server).map (·.child k))
                ((WriteTreeRef.mk base t).childWriteTreeRef k) c).2)
            rw [hno]
            exact passed_no_operation _ _

/-! ## All views -/

end SyncTree

theorem Operation.nodes_mergeForChild {m : CompoundWrite} (h : CompoundWrite.Nodes m) {k : String}
    {overwrite : Path → FNode → Operation} {merge : Path → CompoundWrite → Operation}
    {op : Operation} (hop : mergeForChild m k overwrite merge = some op)
    (ho : ∀ n : FNode, n.WF → (overwrite [] n).Nodes)
    (hm : ∀ m, CompoundWrite.Nodes m → (merge [] m).Nodes) : op.Nodes := by
  have hc := h.childCompoundWriteAtPath [k]
  simp only [mergeForChild] at hop
  split at hop
  · cases hop
  · split at hop <;> cases hop
    · rename_i hv
      exact ho _ (hc.of_value hv)
    · exact hm _ hc

theorem Operation.nodes_operationForChild {op : Operation} (h : op.Nodes) {k : String}
    {op' : Operation} (hop : op.operationForChild k = some op') : op'.Nodes := by
  cases op with
  | userOverwrite p n => cases p <;> cases hop; exacts [KeyTree.WF.child h k, h]
  | serverOverwrite p n => cases p <;> cases hop; exacts [KeyTree.WF.child h k, h]
  | userMerge p m =>
    cases p with
    | nil => exact nodes_mergeForChild h hop (fun _ hn => hn) fun _ hm => hm
    | cons j p => cases hop; exact h
  | serverMerge p m =>
    cases p with
    | nil => exact nodes_mergeForChild h hop (fun _ hn => hn) fun _ hm => hm
    | cons j p => cases hop; exact h
  | listenComplete p => cases p <;> cases hop <;> exact trivial
  | ackUserWrite p affected revert =>
    cases p with
    | nil =>
      simp only [operationForChild] at hop
      split at hop <;> cases hop <;> exact trivial
    | cons j p => cases hop; exact trivial

theorem Operation.nodes_operationForPath {op : Operation} (h : op.Nodes) {p : Path}
    {op' : Operation} (hop : op.operationForPath p = some op') : op'.Nodes := by
  induction p generalizing op with
  | nil => cases hop; exact h
  | cons k p ih =>
    obtain ⟨op₁, h₁, hop⟩ := Option.bind_eq_some_iff.1 hop
    exact ih (nodes_operationForChild h h₁) hop

namespace SyncTree

/-- **Every operation reaches the views it concerns**, and no other. -/
theorem passed_applyOperationToSyncPoints {t : SyncTree} (h : ViewsWF [] t.syncPointTree)
    (op : Operation) (p : Path) :
    Passed ⟨p, t.pendingWriteTree⟩ (t.syncPointTree.valueAtPath p) (concerning op.path op p)
      ((t.applyOperationToSyncPoints op).1.syncPointTree.valueAtPath p)
      (eventsAt p (t.applyOperationToSyncPoints op).2) :=
  (dispatched_helper op.path t.pendingWriteTree op h fun n hn => by cases hn).passed p

theorem viewsWF_applyOperationToSyncPoints {t : SyncTree} (h : ViewsWF [] t.syncPointTree)
    (hw : CompoundWrite.Nodes t.pendingWriteTree.visibleWrites) {op : Operation} (hop : op.Nodes) :
    ViewsWF [] (t.applyOperationToSyncPoints op).1.syncPointTree := by
  refine ⟨(dispatched_helper op.path t.pendingWriteTree op h fun n hn => by cases hn).ordered,
    fun p v' hv' => ?_⟩
  have hp := passed_applyOperationToSyncPoints h op p
  rw [hv'] at hp
  rcases Option.eq_none_or_eq_some (t.syncPointTree.valueAtPath p) with hv | ⟨v, hv⟩
  · rw [hv] at hp
    cases hp.1
  · rw [hv] at hp
    obtain ⟨hpath, hwf⟩ := h.views p v hv
    rcases Option.eq_none_or_eq_some (concerning op.path op p) with ho | ⟨op', ho⟩
    · rw [ho] at hp
      cases hp.1
      exact ⟨hpath, hwf⟩
    · rw [ho] at hp
      obtain ⟨server, hserver, he, -⟩ := hp
      cases he
      have hop' : op'.Nodes := by
        rw [concerning, Option.ite_none_right_eq_some] at ho
        exact Operation.nodes_operationForPath hop ho.2
      obtain ⟨changes, hsound, -⟩ :=
        ViewProcessor.applyOperationOn_sound hw hwf hop' hserver
      exact ⟨hpath, hsound.wf⟩

/-- The view at a path after an operation. -/
theorem view_applyOperationToSyncPoints {t : SyncTree} (h : ViewsWF [] t.syncPointTree)
    {op : Operation} (hop : op.Nodes) {p : Path} {v' : View}
    (hv' : (t.applyOperationToSyncPoints op).1.syncPointTree.valueAtPath p = some v') :
    ∃ v, t.syncPointTree.valueAtPath p = some v ∧
      ((concerning op.path op p = none ∧ v' = v ∧
          eventsAt p (t.applyOperationToSyncPoints op).2 = []) ∨
        ∃ op' server, concerning op.path op p = some op' ∧ op'.Nodes ∧ (∀ n ∈ server, n.WF) ∧
          v' = (v.applyOperation op' ⟨p, t.pendingWriteTree⟩ server).1 ∧
          eventsAt p (t.applyOperationToSyncPoints op).2 =
            (v.applyOperation op' ⟨p, t.pendingWriteTree⟩ server).2) := by
  have hp := passed_applyOperationToSyncPoints h op p
  rw [hv'] at hp
  rcases Option.eq_none_or_eq_some (t.syncPointTree.valueAtPath p) with hv | ⟨v, hv⟩
  · rw [hv] at hp
    cases hp.1
  · refine ⟨v, hv, ?_⟩
    rw [hv] at hp
    rcases Option.eq_none_or_eq_some (concerning op.path op p) with ho | ⟨op', ho⟩
    · rw [ho] at hp
      obtain ⟨he, hevents⟩ := hp
      exact .inl ⟨ho, Option.some.inj he, hevents⟩
    · rw [ho] at hp
      obtain ⟨server, hserver, he, hevents⟩ := hp
      have hop' : op'.Nodes := by
        rw [concerning, Option.ite_none_right_eq_some] at ho
        exact Operation.nodes_operationForPath hop ho.2
      exact .inr ⟨op', server, ho, hop', hserver, Option.some.inj he, hevents⟩

end SyncTree

end Firebase
