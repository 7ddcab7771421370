import IChat.Firebase.Proof.Listens
import IChat.Firebase.Proof.Told

/-!
# What every run of the client keeps

`Repo.Inv` holds in every state of every run, whatever the program does and the server answers: no
assertion fails (`Repo.run_never_asserts`), every listener has last been told what its location
shows (`Repo.run_told`), and the server is asked for the topmost of the observed locations, once
each (`Repo.run_listens`).
-/

open SortedMap KeyTree ImmutableTree

namespace Firebase

open FPath CompoundWrite WriteTree

/-! ## Pending writes and puts -/

/-- The puts not yet answered are the pending writes, in the order they were made. -/
structure Pending (t : WriteTree) (writeIdCounter : Int) (puts : List Int) : Prop where
  ids : puts = t.allWrites.map (·.writeId)
  increasing : puts.Pairwise (· < ·)
  issued : ∀ id ∈ puts, id < writeIdCounter
  last : t.lastWriteId < writeIdCounter
  counter : 0 ≤ writeIdCounter

namespace Pending

variable {t t' : WriteTree} {counter : Int} {puts : List Int}

theorem init : Pending WriteTree.init 0 [] := ⟨rfl, .nil, nofun, by decide, Int.le_refl 0⟩

theorem nodup (h : Pending t counter puts) : puts.Nodup :=
  h.increasing.imp fun hlt => Int.ne_of_lt hlt

/-- A new write has a new number. -/
theorem add (h : Pending t counter puts) {r : WriteRecord} (hr : r.writeId = counter)
    (hall : t'.allWrites = t.allWrites ++ [r]) (hlast : t'.lastWriteId = counter) :
    Pending t' (counter + 1) (puts ++ [counter]) where
  ids := by rw [hall, List.map_append, ← h.ids, List.map_singleton, hr]
  increasing := by
    refine List.pairwise_append.2 ⟨h.increasing, List.pairwise_singleton _ _, fun id hid j hj => ?_⟩
    rw [List.mem_singleton.1 hj]
    exact h.issued id hid
  issued id hid := by
    rcases List.mem_append.1 hid with hid | hid
    · have := h.issued id hid; omega
    · rw [List.mem_singleton.1 hid]; omega
  last := by omega
  counter := by have := h.counter; omega

/-- The write of a put that is not answered. -/
theorem split (h : Pending t counter puts) {id : Int} (hid : id ∈ puts) :
    ∃ pre w post, t.allWrites = pre ++ w :: post ∧ w.writeId = id ∧
      (∀ r ∈ pre, r.writeId ≠ id) ∧ t.writeForId id = some w ∧
        puts.erase id = (pre ++ post).map (·.writeId) := by
  rw [h.ids] at hid
  obtain ⟨w, hw, rfl⟩ := List.mem_map.1 hid
  obtain ⟨pre, post, hall⟩ := List.append_of_mem hw
  have hinc := h.increasing
  rw [h.ids, hall, List.map_append, List.map_cons, List.pairwise_append] at hinc
  have hpre : ∀ r ∈ pre, r.writeId ≠ w.writeId := fun r hr =>
    Int.ne_of_lt (hinc.2.2 _ (List.mem_map_of_mem hr) _ (.head _))
  refine ⟨pre, w, post, hall, rfl, hpre, ?_, ?_⟩
  · have hnone : pre.find? (fun record => record.writeId == w.writeId) = none :=
      List.find?_eq_none.2 fun r hr => by simpa using hpre r hr
    rw [writeForId, hall, List.find?_append, hnone, Option.none_or, List.find?_cons]
    simp
  · have hnot : w.writeId ∉ pre.map (·.writeId) := by
      intro hmem
      obtain ⟨r, hr, he⟩ := List.mem_map.1 hmem
      exact hpre r hr he
    rw [h.ids, hall, List.map_append, List.map_cons, List.erase_append_right _ hnot,
      List.erase_cons_head, List.map_append]

/-- An answered put is gone, and its write with it. -/
theorem remove (h : Pending t counter puts) {id : Int} {b : Bool}
    {pre : List WriteRecord} {w : WriteRecord} {post : List WriteRecord}
    (hall : t.allWrites = pre ++ w :: post) (hw : w.writeId = id)
    (hpre : ∀ r ∈ pre, r.writeId ≠ id) (hputs : puts.erase id = (pre ++ post).map (·.writeId))
    (hrem : t.removeWriteId id = some (b, t')) :
    t'.allWrites = pre ++ post ∧ Pending t' counter (puts.erase id) := by
  subst hw
  have hsub : ∀ j ∈ puts.erase w.writeId, j ∈ puts := fun j hj => List.mem_of_mem_erase hj
  have hissued : ∀ r ∈ pre ++ post, r.writeId < counter := fun r hr =>
    h.issued _ (hsub _ (by rw [hputs]; exact List.mem_map_of_mem hr))
  have hlast : t'.allWrites = pre ++ post ∧ t'.lastWriteId < counter := by
    rw [removeWriteId_eq hall hpre, Option.some.injEq] at hrem
    split at hrem <;> cases hrem
    · exact ⟨rfl, h.last⟩
    · refine ⟨rfl, ?_⟩
      simp only [resetTree]
      split
      · rename_i r hr
        exact hissued r (List.mem_of_getLast? hr)
      · have := h.counter; omega
    · exact ⟨rfl, h.last⟩
  exact ⟨hlast.1, by rw [hputs, hlast.1], h.increasing.erase _, fun j hj => h.issued j (hsub j hj),
    hlast.2, h.counter⟩

end Pending

/-! ## The invariant -/

/-- The nodes an event brings are well-formed. -/
def RepoEvent.Nodes : RepoEvent → Prop
  | .set _ newData => newData.WF
  | .update _ changedChildren => CompoundWrite.Nodes changedChildren
  | .onDataUpdate _ data => data.WF
  | .onDataMerge _ changedChildren => CompoundWrite.Nodes changedChildren
  | .putResponse _ _ | .listenResponse _ _ | .addEventRegistration _ _
  | .removeEventRegistration _ _ => True

namespace Repo

/-- What holds between the parts of the client. -/
structure Inv (r : Repo) : Prop where
  views : ViewsWF [] r.serverSyncTree.syncPointTree
  nodes : r.serverSyncTree.pendingWriteTree.Nodes
  pending : Pending r.serverSyncTree.pendingWriteTree r.writeIdCounter r.outstandingPuts
  listening : Listening r.listens r.serverSyncTree.syncPointTree
  told : AllTold r.raised r.serverSyncTree.syncPointTree
  registered : SyncTree.Registered r.serverSyncTree.syncPointTree

theorem valueAtPath_init (p : Path) : init.serverSyncTree.syncPointTree.valueAtPath p = none :=
  valueAtPath_empty p

theorem Inv.init : Inv Repo.init where
  views := ⟨.empty, fun p v hv => by rw [valueAtPath_init] at hv; cases hv⟩
  nodes := .init
  pending := .init
  listening := ⟨.nil, fun p => iff_of_false (fun hp => by cases hp) fun hp => by
    have hp := hp.1
    rw [Observed, valueAtPath_init] at hp
    cases hp⟩
  told p v hv := by rw [valueAtPath_init] at hv; cases hv
  registered p v hv := by rw [valueAtPath_init] at hv; cases hv

/-- An operation keeps the invariant when the pending writes are those of the outstanding puts. -/
theorem Inv.operation {r : Repo} (h : r.Inv) {t : WriteTree} (ht : t.Nodes) {counter : Int}
    {puts : List Int} (hp : Pending t counter puts) {op : Operation} (hop : op.Nodes) :
    (raise { r with writeIdCounter := counter, outstandingPuts := puts }
      (SyncTree.applyOperationToSyncPoints ⟨r.serverSyncTree.syncPointTree, t⟩ op)).Inv := by
  have hviews : ViewsWF [] (SyncTree.mk r.serverSyncTree.syncPointTree t).syncPointTree := h.views
  exact {
    views := SyncTree.viewsWF_applyOperationToSyncPoints hviews ht.visibleWrites hop
    nodes := ht
    pending := hp
    listening := h.listening.congr (SyncTree.observed_applyOperationToSyncPoints hviews op)
    told := SyncTree.allTold_applyOperationToSyncPoints hviews ht.visibleWrites hop h.told
    registered := SyncTree.registered_applyOperationToSyncPoints hviews hop h.registered }

/-- So does one that the server brings. -/
theorem Inv.server {r : Repo} (h : r.Inv) {op : Operation} (hop : op.Nodes) :
    (r.raise (r.serverSyncTree.applyOperationToSyncPoints op)).Inv :=
  h.operation h.nodes h.pending hop

/-! ## Every step is taken and keeps the invariant -/

theorem step_set {r : Repo} (h : r.Inv) (p : Path) {newData : FNode} (hn : newData.WF) :
    ∃ r', r.set p newData = some r' ∧ r'.Inv := by
  have hop : (Operation.userOverwrite p newData).Nodes := hn
  exact ⟨_, if_pos h.pending.last, h.operation
    (h.nodes.addOverwrite p hn r.writeIdCounter true) (h.pending.add rfl rfl rfl) hop⟩

theorem step_update {r : Repo} (h : r.Inv) (p : Path) {m : CompoundWrite}
    (hm : CompoundWrite.Nodes m) : ∃ r', r.update p m = some r' ∧ r'.Inv := by
  unfold update
  split
  · exact ⟨r, rfl, h⟩
  · have hop : (Operation.userMerge p m).Nodes := hm
    exact ⟨_, if_pos h.pending.last, h.operation (h.nodes.addMerge p hm r.writeIdCounter)
      (h.pending.add rfl rfl rfl) hop⟩

theorem step_putResponse {r : Repo} (h : r.Inv) (writeId : Int) (success : Bool) :
    ∃ r', r.putResponse writeId success = some r' ∧ r'.Inv := by
  unfold putResponse
  by_cases hid : writeId ∈ r.outstandingPuts
  · obtain ⟨pre, w, post, hall, hw, hpre, hfind, hputs⟩ := h.pending.split hid
    obtain ⟨b, t', hrem⟩ : ∃ b t',
        r.serverSyncTree.pendingWriteTree.removeWriteId writeId = some (b, t') := by
      rw [← hw] at hpre ⊢
      rw [removeWriteId_eq hall hpre]
      exact ⟨_, _, rfl⟩
    have hpending := (h.pending.remove hall hw hpre hputs hrem).2
    have hnodes := h.nodes.removeWriteId hrem
    simp only [if_pos hid, SyncTree.ackUserWriteWithWriteId, hfind, hrem]
    cases b with
    | false =>
      refine ⟨_, rfl, h.views, hnodes, hpending, h.listening, ?_, h.registered⟩
      show AllTold (r.raised ++ []) _
      rw [List.append_nil]
      exact h.told
    | true =>
      have hop : (Operation.ackUserWrite w.path (SyncTree.affectedTree w) !success).Nodes := trivial
      exact ⟨_, rfl, h.operation hnodes hpending hop⟩
  · exact ⟨r, if_neg hid, h⟩

theorem step_listenResponse {r : Repo} (h : r.Inv) (p : Path) (success : Bool) :
    ∃ r', r.listenResponse p success = some r' ∧ r'.Inv := by
  unfold listenResponse
  by_cases hp : p ∈ r.listens
  · cases success with
    | true =>
      simp only [if_pos hp, if_true]
      have hop : (Operation.listenComplete p).Nodes := trivial
      exact ⟨_, rfl, h.server hop⟩
    | false =>
      obtain ⟨listens, hperform, hlistening⟩ :=
        SyncTree.listening_cancelled h.views h.listening hp
      obtain ⟨tree, he, -⟩ := r.serverSyncTree.removeEventRegistration_cases none p true
      have hw : (r.serverSyncTree.removeEventRegistration none p true).1.pendingWriteTree =
          r.serverSyncTree.pendingWriteTree := by rw [he]
      simp only [if_pos hp, Bool.false_eq_true, if_false, hperform]
      refine ⟨_, rfl, ?_, ?_, ?_, hlistening, ?_, ?_⟩
      · exact SyncTree.viewsWF_removeEventRegistration h.views none p true
      · rw [hw]; exact h.nodes
      · rw [hw]; exact h.pending
      · exact SyncTree.allTold_removeEventRegistration h.told none p true
      · exact SyncTree.registered_removeEventRegistration h.registered none p true
  · exact ⟨r, if_neg hp, h⟩

theorem step_addEventRegistration {r : Repo} (h : r.Inv) (registration : Nat) (p : Path) :
    ∃ r', r.addEventRegistration registration p = some r' ∧ r'.Inv := by
  obtain ⟨listens, hperform, hlistening⟩ :=
    SyncTree.listening_addEventRegistration h.views h.listening registration p
  obtain ⟨v, he, -⟩ := r.serverSyncTree.addEventRegistration_cases registration p
  have hw : (r.serverSyncTree.addEventRegistration registration p).1.pendingWriteTree =
      r.serverSyncTree.pendingWriteTree := by rw [he]
  simp only [addEventRegistration, hperform]
  refine ⟨_, rfl, ?_, ?_, ?_, hlistening, ?_, ?_⟩
  · exact SyncTree.viewsWF_addEventRegistration h.views h.nodes.visibleWrites registration p
  · show WriteTree.Nodes (r.serverSyncTree.addEventRegistration registration p).1.pendingWriteTree
    rw [hw]; exact h.nodes
  · show Pending (r.serverSyncTree.addEventRegistration registration p).1.pendingWriteTree _ _
    rw [hw]; exact h.pending
  · exact SyncTree.allTold_addEventRegistration h.views h.told registration p
  · exact SyncTree.registered_addEventRegistration h.registered registration p

theorem step_removeEventRegistration {r : Repo} (h : r.Inv) (registration : Option Nat)
    (p : Path) : ∃ r', r.removeEventRegistration registration p = some r' ∧ r'.Inv := by
  obtain ⟨listens, hperform, hlistening⟩ :=
    SyncTree.listening_removeEventRegistration h.views h.listening registration p
  obtain ⟨tree, he, -⟩ := r.serverSyncTree.removeEventRegistration_cases registration p false
  have hw : (r.serverSyncTree.removeEventRegistration registration p false).1.pendingWriteTree =
      r.serverSyncTree.pendingWriteTree := by rw [he]
  simp only [removeEventRegistration, hperform]
  refine ⟨_, rfl, ?_, ?_, ?_, hlistening, ?_, ?_⟩
  · exact SyncTree.viewsWF_removeEventRegistration h.views registration p false
  · rw [hw]; exact h.nodes
  · rw [hw]; exact h.pending
  · exact SyncTree.allTold_removeEventRegistration h.told registration p false
  · exact SyncTree.registered_removeEventRegistration h.registered registration p false

/-- **Every step** is taken, and keeps the invariant. -/
theorem step_inv {r : Repo} (h : r.Inv) {e : RepoEvent} (he : e.Nodes) :
    ∃ r', r.step e = some r' ∧ r'.Inv := by
  cases e with
  | set p newData => exact step_set h p he
  | update p m => exact step_update h p he
  | putResponse writeId success => exact step_putResponse h writeId success
  | onDataUpdate p data =>
    have hop : (Operation.serverOverwrite p data).Nodes := he
    exact ⟨_, rfl, h.server hop⟩
  | onDataMerge p m =>
    have hop : (Operation.serverMerge p m).Nodes := he
    exact ⟨_, rfl, h.server hop⟩
  | listenResponse p success => exact step_listenResponse h p success
  | addEventRegistration registration p => exact step_addEventRegistration h registration p
  | removeEventRegistration registration p => exact step_removeEventRegistration h registration p

/-! ## What a step tells -/

/-- A step passes an operation to the views, with the writes then pending. -/
def Operates (r r' : Repo) : Prop :=
  ∃ t op, t.Nodes ∧ op.Nodes ∧
    r'.serverSyncTree =
      (SyncTree.applyOperationToSyncPoints ⟨r.serverSyncTree.syncPointTree, t⟩ op).1 ∧
    r'.raised = r.raised ++
      (SyncTree.applyOperationToSyncPoints ⟨r.serverSyncTree.syncPointTree, t⟩ op).2

/-- A step leaves the views as they are. -/
def Idle (r r' : Repo) : Prop :=
  r'.serverSyncTree.syncPointTree = r.serverSyncTree.syncPointTree ∧ r'.raised = r.raised

/-- What becomes of the views and the events, for each kind of event. -/
def Stepped (r r' : Repo) : RepoEvent → Prop
  | .addEventRegistration registration p =>
    r'.serverSyncTree = (r.serverSyncTree.addEventRegistration registration p).1 ∧
      r'.raised = r.raised ++ (r.serverSyncTree.addEventRegistration registration p).2.1
  | .removeEventRegistration registration p =>
    r'.serverSyncTree = (r.serverSyncTree.removeEventRegistration registration p false).1 ∧
      r'.raised = r.raised
  | .listenResponse p false => Idle r r' ∨
    r'.serverSyncTree = (r.serverSyncTree.removeEventRegistration none p true).1 ∧
      r'.raised = r.raised
  | _ => Idle r r' ∨ Operates r r'

theorem stepped {r r' : Repo} (h : r.Inv) {e : RepoEvent} (he : e.Nodes)
    (hs : r.step e = some r') : Stepped r r' e := by
  cases e with
  | set p newData =>
    have hop : (Operation.userOverwrite p newData).Nodes := he
    obtain ⟨-, hs⟩ := Option.ite_none_right_eq_some.1 hs
    cases hs
    exact .inr ⟨_, _, h.nodes.addOverwrite p he r.writeIdCounter true, hop, rfl, rfl⟩
  | update p m =>
    have hop : (Operation.userMerge p m).Nodes := he
    simp only [step, update] at hs
    split at hs
    · cases hs
      exact .inl ⟨rfl, rfl⟩
    · obtain ⟨-, hs⟩ := Option.ite_none_right_eq_some.1 hs
      cases hs
      exact .inr ⟨_, _, h.nodes.addMerge p he r.writeIdCounter, hop, rfl, rfl⟩
  | putResponse writeId success =>
    simp only [step, putResponse] at hs
    split at hs
    · obtain ⟨x, hx, rfl⟩ := Option.map_eq_some_iff.1 hs
      unfold SyncTree.ackUserWriteWithWriteId at hx
      split at hx
      · rename_i w b t' _ hrem
        split at hx
        · cases hx
          exact .inl ⟨rfl, List.append_nil _⟩
        · cases hx
          have hop : (Operation.ackUserWrite w.path (SyncTree.affectedTree w) !success).Nodes :=
            trivial
          exact .inr ⟨_, _, h.nodes.removeWriteId hrem, hop, rfl, rfl⟩
      · cases hx
    · cases hs
      exact .inl ⟨rfl, rfl⟩
  | onDataUpdate p data =>
    have hop : (Operation.serverOverwrite p data).Nodes := he
    cases hs
    exact .inr ⟨_, _, h.nodes, hop, rfl, rfl⟩
  | onDataMerge p m =>
    have hop : (Operation.serverMerge p m).Nodes := he
    cases hs
    exact .inr ⟨_, _, h.nodes, hop, rfl, rfl⟩
  | listenResponse p success =>
    simp only [step, listenResponse] at hs
    cases success with
    | true =>
      split at hs
      · have hop : (Operation.listenComplete p).Nodes := trivial
        cases hs
        exact .inr ⟨_, _, h.nodes, hop, rfl, rfl⟩
      · cases hs
        exact .inl ⟨rfl, rfl⟩
    | false =>
      split at hs
      · obtain ⟨listens, -, rfl⟩ := Option.map_eq_some_iff.1 hs
        exact .inr ⟨rfl, rfl⟩
      · cases hs
        exact .inl ⟨rfl, rfl⟩
  | addEventRegistration registration p =>
    obtain ⟨listens, -, rfl⟩ := Option.map_eq_some_iff.1 hs
    exact ⟨rfl, rfl⟩
  | removeEventRegistration registration p =>
    obtain ⟨listens, -, rfl⟩ := Option.map_eq_some_iff.1 hs
    exact ⟨rfl, rfl⟩

/-- A step raises events, all of which are true of what is shown after it. -/
def Tells (r r' : Repo) : Prop :=
  ∃ events, r'.raised = r.raised ++ events ∧
    ∀ e ∈ events, Shown r'.serverSyncTree.syncPointTree e

theorem tells_nothing {r r' : Repo} (h : r'.raised = r.raised) : Tells r r' :=
  ⟨[], by rw [h, List.append_nil], nofun⟩

theorem Operates.tells {r r' : Repo} (h : r.Inv) (ho : Operates r r') : Tells r r' := by
  obtain ⟨t, op, ht, hop, htree, hraised⟩ := ho
  have hviews : ViewsWF [] (SyncTree.mk r.serverSyncTree.syncPointTree t).syncPointTree := h.views
  refine ⟨_, hraised, ?_⟩
  rw [htree]
  exact SyncTree.shown_applyOperationToSyncPoints hviews ht.visibleWrites hop

theorem step_tells {r r' : Repo} (h : r.Inv) {e : RepoEvent} (he : e.Nodes)
    (hs : r.step e = some r') : Tells r r' := by
  have hstepped := stepped h he hs
  cases e with
  | addEventRegistration registration p =>
    obtain ⟨htree, hraised⟩ := hstepped
    refine ⟨_, hraised, ?_⟩
    rw [htree]
    exact SyncTree.shown_addEventRegistration h.views h.nodes.visibleWrites registration p
  | removeEventRegistration registration p => exact tells_nothing hstepped.2
  | listenResponse p success =>
    cases success with
    | true => exact hstepped.elim (fun hidle => tells_nothing hidle.2) fun ho => ho.tells h
    | false =>
      exact hstepped.elim (fun hidle => tells_nothing hidle.2) fun hcancel => tells_nothing hcancel.2
  | set | update | putResponse | onDataUpdate | onDataMerge =>
    exact hstepped.elim (fun hidle => tells_nothing hidle.2) fun ho => ho.tells h

/-! ## Runs -/

theorem run_inv {es : List RepoEvent} (hes : ∀ e ∈ es, e.Nodes) {r : Repo}
    (hrun : Machine.run step init es = some r) : r.Inv := by
  refine Machine.run_keeps hrun Inv.init fun e he s₁ s₂ h hs => ?_
  obtain ⟨s', hs', h'⟩ := step_inv h (hes e he)
  rw [hs] at hs'
  cases hs'
  exact h'

/-- **No assertion fails**: the client takes every event, in any order. -/
theorem run_never_asserts {es : List RepoEvent} (hes : ∀ e ∈ es, e.Nodes) :
    ∃ r, Machine.run step init es = some r :=
  (Machine.run_total_of_mem Inv.init fun e he _ h => step_inv h (hes e he)).imp fun _ h => h.1

/-- A location is observed, its data comes, and the program writes there. -/
def session : List RepoEvent :=
  [.addEventRegistration 0 ["users"],
    .onDataUpdate ["users"] (nodeFrom (.dict [("bob", .str "Bob")])),
    .set ["users", "ada"] (.leaf (.str "Ada"))]

theorem session_nodes : ∀ e ∈ session, e.Nodes :=
  List.forall_mem_cons.2 ⟨trivial, List.forall_mem_cons.2 ⟨wf_nodeFrom _,
    List.forall_mem_cons.2 ⟨.leaf _, fun _ h => by cases h⟩⟩⟩

theorem run_never_asserts_session : ∃ r, Machine.run step init session = some r :=
  run_never_asserts session_nodes

/-- **Every listener has been told**: the last value that a listener got is what its location shows,
whenever all of that is known. -/
theorem run_told {es : List RepoEvent} (hes : ∀ e ∈ es, e.Nodes) {r : Repo}
    (hrun : Machine.run step init es = some r) {p : Path} {v : View}
    (hv : r.serverSyncTree.syncPointTree.valueAtPath p = some v) {h : Nat}
    (hh : h ∈ v.eventRegistrations) (hfull : v.viewCache.cachedEventSnap.isFullyInitialized = true) :
    lastTold r.raised p h = some v.viewCache.cachedEventSnap.node :=
  (run_inv hes hrun).told p v hv h hh hfull

/-- The write is told at once. -/
theorem run_told_session : ∃ r, Machine.run step init session = some r ∧
    lastTold r.raised ["users"] 0 =
      some (.node [("ada", .leaf (.str "Ada")), ("bob", .leaf (.str "Bob"))]) := by
  refine ⟨_, rfl, ?_⟩
  exact (run_told session_nodes rfl (p := ["users"]) rfl (h := 0) (.head _) rfl).trans rfl

/-- **No listener is told anything else**: every event of the last step of a run tells what its
location shows then, to one of its listeners. -/
theorem run_raised {es : List RepoEvent} {e : RepoEvent} (hes : ∀ x ∈ es ++ [e], x.Nodes)
    {r r' : Repo} (hrun : Machine.run step init es = some r) (hs : r.step e = some r') :
    ∃ events, r'.raised = r.raised ++ events ∧
      ∀ x ∈ events, Shown r'.serverSyncTree.syncPointTree x :=
  step_tells (run_inv (fun x hx => hes x (List.mem_append_left _ hx)) hrun)
    (hes e (List.mem_append_right _ (.head _))) hs

theorem run_raised_session : ∃ r r' events, Machine.run step init session = some r ∧
    r.step (.set ["users", "zain"] (.leaf (.str "Zain"))) = some r' ∧
    r'.raised = r.raised ++ events ∧ ∀ x ∈ events, Shown r'.serverSyncTree.syncPointTree x := by
  have hes : ∀ e ∈ session ++ [.set ["users", "zain"] (.leaf (.str "Zain"))], e.Nodes :=
    List.forall_mem_append.2 ⟨session_nodes, fun e he => by
      rw [List.mem_singleton.1 he]; exact .leaf _⟩
  obtain ⟨events, he, hshown⟩ := run_raised hes rfl rfl
  exact ⟨_, _, events, rfl, rfl, he, hshown⟩

/-- **What the server is asked for**: no query twice, none that nobody observes, and exactly one at
or above every location observed. -/
theorem run_listens {es : List RepoEvent} (hes : ∀ e ∈ es, e.Nodes) {r : Repo}
    (hrun : Machine.run step init es = some r) :
    r.listens.Nodup ∧ (∀ p ∈ r.listens, Observed r.serverSyncTree.syncPointTree p) ∧
      ∀ p, Observed r.serverSyncTree.syncPointTree p → ∃! q, q ∈ r.listens ∧ q <+: p := by
  have h := (run_inv hes hrun).listening
  refine ⟨h.nodup, fun p hp => ((h.topmost p).1 hp).1, fun p hp => ?_⟩
  simp only [h.topmost]
  exact Topmost.existsUnique_topmost hp

theorem run_listens_session : ∃ r, Machine.run step init session = some r ∧
    r.listens.Nodup ∧ (∀ p ∈ r.listens, Observed r.serverSyncTree.syncPointTree p) ∧
      ∀ p, Observed r.serverSyncTree.syncPointTree p → ∃! q, q ∈ r.listens ∧ q <+: p :=
  ⟨_, rfl, run_listens session_nodes rfl⟩

/-- **The puts not yet answered** are the writes that are pending, in the order they were made. -/
theorem run_outstanding {es : List RepoEvent} (hes : ∀ e ∈ es, e.Nodes) {r : Repo}
    (hrun : Machine.run step init es = some r) :
    r.outstandingPuts = r.serverSyncTree.pendingWriteTree.allWrites.map (·.writeId) ∧
      r.outstandingPuts.Pairwise (· < ·) ∧ ∀ id ∈ r.outstandingPuts, id < r.writeIdCounter :=
  have h := (run_inv hes hrun).pending
  ⟨h.ids, h.increasing, h.issued⟩

theorem run_outstanding_session : ∃ r, Machine.run step init session = some r ∧
    r.outstandingPuts = r.serverSyncTree.pendingWriteTree.allWrites.map (·.writeId) ∧
      r.outstandingPuts.Pairwise (· < ·) ∧ ∀ id ∈ r.outstandingPuts, id < r.writeIdCounter :=
  ⟨_, rfl, run_outstanding session_nodes rfl⟩

end Repo

end Firebase
