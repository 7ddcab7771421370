import IChat.Firebase.Proof.Repo
import IChat.Firebase.Proof.ServerData

/-!
# What the listeners see

The specification of the client: every listener is shown the data of the server, as far as it has
been sent, after the program's own writes that the server has not answered yet
(`Repo.run_replica`). With nothing pending that is the server's data (`Repo.run_quiescent`).

It is met by the runs whose steps are `Orderly`. Two of the conditions are about what the client
gets wrong: an answer that comes before that to an earlier write above leaves the write in view
(`WriteTree.removeWriteId_exact`), and one to a write below a leaf leaves nothing of the leaf
(`ViewProcessor.synced_ackBelow_iff`).
-/

open SortedMap KeyTree ImmutableTree

namespace Firebase

open FPath CompoundWrite WriteTree

/-- The server's data after a message. -/
def RepoEvent.serverData (s : FNode) : RepoEvent → FNode
  | .onDataUpdate path data => s.set path data
  | .onDataMerge path changedChildren => s.set path (applyToNode changedChildren (s.get path))
  | _ => s

/-- The server's data as its messages have told it. -/
def serverData (es : List RepoEvent) : FNode := es.foldl RepoEvent.serverData KeyTree.empty

namespace Repo

/-- The writes that are pending. -/
def pendingWrites (r : Repo) : List WriteRecord := r.serverSyncTree.pendingWriteTree.allWrites

/-- The answer to a write comes when no earlier one to the same data is pending, and if it is
accepted, no leaf is shown above it. -/
def Answered (r : Repo) (writeId : Int) (success : Bool) : Prop :=
  ∀ pre w post, r.pendingWrites = pre ++ w :: post → w.writeId = writeId →
    (∀ x ∈ pre, Apart x.path w.path) ∧
      (success = true → ∀ t', r.serverSyncTree.pendingWriteTree.removeWriteId writeId =
        some (true, t') → r.serverSyncTree.NoLeafAbove t' w.path)

/-- The program writes nodes that are not empty, the server answers in order, and it sends all data
before it says that it has. -/
def Orderly (r : Repo) : RepoEvent → Prop
  | .set path newData => Stores (path, newData)
  | .update _ _ => False
  | .putResponse writeId success => r.Answered writeId success
  | .onDataUpdate _ data => data.WF
  | .onDataMerge _ changedChildren => CompoundWrite.WF changedChildren ∧ changedChildren.value = none
  | .listenResponse path success => success = true → path ∈ r.listens → ∀ q v,
      r.serverSyncTree.syncPointTree.valueAtPath (path ++ q) = some v →
        v.viewCache.cachedServerSnap.isFullyInitialized = true
  | .addEventRegistration _ _ | .removeEventRegistration _ _ => True

theorem Orderly.nodes {r : Repo} {e : RepoEvent} (h : r.Orderly e) : e.Nodes := by
  cases e with
  | set p n => exact h.1
  | update p m => exact h.elim
  | onDataUpdate p n => exact h
  | onDataMerge p m => exact h.1.nodes
  | _ => trivial

/-- The client as a replica of the server's data `s`. -/
structure Replica (s : FNode) (r : Repo) : Prop where
  inv : r.Inv
  layered : r.serverSyncTree.pendingWriteTree.Layered
  records : ∀ w ∈ r.pendingWrites, w.WF
  overwrites : Overwrites r.pendingWrites
  synced : r.serverSyncTree.AllSynced
  server : s.WF
  data : SyncTree.HasServerData s r.serverSyncTree.syncPointTree

namespace Replica

variable {s : FNode} {r r' : Repo}

theorem init : Replica KeyTree.empty Repo.init where
  inv := .init
  layered := rfl
  records := nofun
  overwrites := nofun
  synced p v hv := by rw [valueAtPath_init] at hv; cases hv
  server := .empty
  data p v hv := by rw [valueAtPath_init] at hv; cases hv

theorem wf (h : Replica s r) : CompoundWrite.WF r.serverSyncTree.pendingWriteTree.visibleWrites :=
  h.layered.wf h.records

theorem set (h : Replica s r) {p : Path} {newData : FNode} (hnew : Stores (p, newData))
    (hinv : r'.Inv) (hs : r.set p newData = some r') : Replica s r' := by
  rw [Repo.set, if_pos h.inv.pending.last, Option.some.injEq] at hs
  have hmem : ∀ w ∈ r.pendingWrites ++ [⟨r.writeIdCounter, p, .overwrite newData, true⟩],
      w.WF ∧ ∃ n, w.change = .overwrite n := by
    intro w hw
    rcases List.mem_append.1 hw with hw | hw
    · exact ⟨h.records w hw, h.overwrites w hw⟩
    · rw [List.mem_singleton.1 hw]
      exact ⟨⟨rfl, hnew⟩, newData, rfl⟩
  subst hs
  have hsynced := SyncTree.allSynced_userOverwrite h.inv.views h.wf h.synced hnew r.writeIdCounter
  have hop : (Operation.userOverwrite p newData).Nodes := hnew.1
  have hdata := SyncTree.hasServerData_operation
    (t := ⟨r.serverSyncTree.syncPointTree,
      r.serverSyncTree.pendingWriteTree.addOverwriteAtPath p newData r.writeIdCounter true⟩)
    h.inv.views (h.inv.nodes.addOverwrite p hnew.1 r.writeIdCounter true).visibleWrites
    hop trivial h.server h.data (fun _ he => by cases he)
  exact ⟨hinv, h.layered.addOverwrite p newData r.writeIdCounter, fun w hw => (hmem w hw).1,
    fun w hw => (hmem w hw).2, hsynced, h.server, hdata⟩

/-- An operation that the server brings. -/
theorem operation (h : Replica s r) {op : Operation} (hop : op.Nodes) (hsent : op.Sent)
    (hserver : op.FromServer)
    (hlisten : ∀ path, op = .listenComplete path → ∀ q v,
      r.serverSyncTree.syncPointTree.valueAtPath (path ++ q) = some v →
        v.viewCache.cachedServerSnap.isFullyInitialized = true) :
    Replica (op.serverData s) (r.raise (r.serverSyncTree.applyOperationToSyncPoints op)) where
  inv := h.inv.server hop
  layered := h.layered
  records := h.records
  overwrites := h.overwrites
  synced := SyncTree.allSynced_server h.inv.views h.wf h.synced hop hserver
  server := Operation.wf_serverData hsent h.server
  data := SyncTree.hasServerData_operation h.inv.views h.inv.nodes.visibleWrites hop hsent h.server
    h.data hlisten

theorem putResponse (h : Replica s r) {writeId : Int} {success : Bool}
    (ha : r.Answered writeId success) (hinv : r'.Inv)
    (hs : r.putResponse writeId success = some r') : Replica s r' := by
  unfold Repo.putResponse at hs
  by_cases hid : writeId ∈ r.outstandingPuts
  · obtain ⟨pre, w, post, hall, hw, hpre, hfind, -⟩ := h.inv.pending.split hid
    obtain ⟨hap, hleaf⟩ := ha pre w post hall hw
    subst hw
    obtain ⟨b, t', hrem, hall', hlay, hsame, hremoved⟩ :=
      removeWriteId_settled h.layered h.records h.overwrites hall hpre hap
    have hsub : ∀ x ∈ t'.allWrites, x ∈ r.pendingWrites := by
      intro x hx
      rw [hall', List.mem_append] at hx
      rw [pendingWrites, hall, List.mem_append]
      exact hx.imp id (.tail _)
    have hrecords : ∀ x ∈ t'.allWrites, x.WF := fun x hx => h.records x (hsub x hx)
    have hoverwrites : Overwrites t'.allWrites := fun x hx => h.overwrites x (hsub x hx)
    have hwf := hlay.wf hrecords
    simp only [if_pos hid, SyncTree.ackUserWriteWithWriteId, hfind, hrem] at hs
    cases b with
    | false =>
      -- a later write hides it
      cases hs
      have hvisible := hsame rfl
      refine ⟨hinv, hlay, hrecords, hoverwrites, fun p v hv => ?_, h.server, h.data⟩
      exact (h.synced p v hv).congr h.wf hwf (congrArg (childCompoundWriteAtPath · p) hvisible)
    | true =>
      cases hs
      have haffected : SyncTree.affectedTree w = initWithValue () := by
        obtain ⟨n, hn⟩ := h.overwrites w (by
          rw [pendingWrites, hall]; exact List.mem_append_right _ (.head _))
        rw [SyncTree.affectedTree, hn]
        rfl
      have hop : (Operation.ackUserWrite w.path (SyncTree.affectedTree w) !success).Nodes := trivial
      have hsent : (Operation.ackUserWrite w.path (SyncTree.affectedTree w) !success).Sent :=
        haffected
      have hsynced := SyncTree.allSynced_answer h.inv.views h.wf h.synced hwf (hremoved rfl)
        (!success) fun hrevert => hleaf (by simpa using hrevert) t' hrem
      have hdata := SyncTree.hasServerData_operation
        (t := ⟨r.serverSyncTree.syncPointTree, t'⟩) h.inv.views
        (h.inv.nodes.removeWriteId hrem).visibleWrites hop hsent h.server h.data
        (fun _ he => by cases he)
      rw [← haffected] at hsynced
      exact ⟨hinv, hlay, hrecords, hoverwrites, hsynced, h.server, hdata⟩
  · rw [if_neg hid, Option.some.injEq] at hs
    subst hs
    exact h

/-- A change of the registrations: the writes are the same. -/
theorem registrations (h : Replica s r) (hinv : r'.Inv)
    (hwrites : r'.serverSyncTree.pendingWriteTree = r.serverSyncTree.pendingWriteTree)
    (hsynced : r'.serverSyncTree.AllSynced)
    (hdata : SyncTree.HasServerData s r'.serverSyncTree.syncPointTree) : Replica s r' where
  inv := hinv
  layered := by rw [hwrites]; exact h.layered
  records := by rw [pendingWrites, hwrites]; exact h.records
  overwrites := by rw [pendingWrites, hwrites]; exact h.overwrites
  synced := hsynced
  server := h.server
  data := hdata

theorem addEventRegistration (h : Replica s r) {registration : Nat} {p : Path} (hinv : r'.Inv)
    (hs : r.addEventRegistration registration p = some r') : Replica s r' := by
  obtain ⟨v, he, -⟩ := r.serverSyncTree.addEventRegistration_cases registration p
  have hsynced := SyncTree.allSynced_addEventRegistration h.wf h.synced registration p
  have hdata := SyncTree.hasServerData_addEventRegistration h.data registration p
  obtain ⟨listens, -, rfl⟩ := Option.map_eq_some_iff.1 hs
  refine h.registrations hinv ?_ hsynced hdata
  show (r.serverSyncTree.addEventRegistration registration p).1.pendingWriteTree = _
  rw [he]

theorem removeEventRegistration (h : Replica s r) {registration : Option Nat} {p : Path}
    (hinv : r'.Inv) (hs : r.removeEventRegistration registration p = some r') : Replica s r' := by
  obtain ⟨tree, he, -⟩ := r.serverSyncTree.removeEventRegistration_cases registration p false
  have hsynced := SyncTree.allSynced_removeEventRegistration h.synced registration p false
  have hdata := SyncTree.hasServerData_removeEventRegistration h.data registration p false
  obtain ⟨listens, -, rfl⟩ := Option.map_eq_some_iff.1 hs
  refine h.registrations hinv ?_ hsynced hdata
  show (r.serverSyncTree.removeEventRegistration registration p false).1.pendingWriteTree = _
  rw [he]

theorem listenResponse (h : Replica s r) {p : Path} {success : Bool}
    (ho : r.Orderly (.listenResponse p success)) (hinv : r'.Inv)
    (hs : r.listenResponse p success = some r') : Replica s r' := by
  unfold Repo.listenResponse at hs
  by_cases hp : p ∈ r.listens
  · rw [if_pos hp] at hs
    cases success with
    | true =>
      cases hs
      have hop : (Operation.listenComplete p).Nodes := trivial
      refine h.operation hop trivial trivial fun path he => ?_
      cases he
      exact ho rfl hp
    | false =>
      obtain ⟨tree, he, -⟩ := r.serverSyncTree.removeEventRegistration_cases none p true
      have hsynced := SyncTree.allSynced_removeEventRegistration h.synced none p true
      have hdata := SyncTree.hasServerData_removeEventRegistration h.data none p true
      obtain ⟨listens, -, rfl⟩ := Option.map_eq_some_iff.1 hs
      refine h.registrations hinv ?_ hsynced hdata
      show (r.serverSyncTree.removeEventRegistration none p true).1.pendingWriteTree = _
      rw [he]
  · rw [if_neg hp, Option.some.injEq] at hs
    subst hs
    exact h

/-- **Every orderly step** leaves a replica of the server's data. -/
theorem step (h : Replica s r) {e : RepoEvent} (ho : r.Orderly e) (hs : r.step e = some r') :
    Replica (e.serverData s) r' := by
  have hinv : r'.Inv := by
    obtain ⟨r'', hs'', hinv⟩ := step_inv h.inv ho.nodes
    rw [hs] at hs''
    cases hs''
    exact hinv
  cases e with
  | set p newData => exact h.set ho hinv hs
  | update p m => exact ho.elim
  | putResponse writeId success => exact h.putResponse ho hinv hs
  | onDataUpdate p data =>
    cases hs
    have hop : (Operation.serverOverwrite p data).Nodes := ho
    exact h.operation hop ho trivial (fun _ he => by cases he)
  | onDataMerge p m =>
    cases hs
    have hop : (Operation.serverMerge p m).Nodes := ho.1.nodes
    exact h.operation hop ho trivial (fun _ he => by cases he)
  | listenResponse p success => exact h.listenResponse ho hinv hs
  | addEventRegistration registration p => exact h.addEventRegistration hinv hs
  | removeEventRegistration registration p => exact h.removeEventRegistration hinv hs

/-- What the listeners of a location got last. -/
theorem told (h : Replica s r) {p : Path} {v : View}
    (hv : r.serverSyncTree.syncPointTree.valueAtPath p = some v)
    (hfull : v.viewCache.cachedServerSnap.isFullyInitialized = true) {registration : Nat}
    (hr : registration ∈ v.eventRegistrations) :
    lastTold r.raised p registration = some ((s.replay (writesOf r.pendingWrites)).get p) := by
  obtain ⟨hevent, hnode⟩ := (h.synced p v hv).full hfull
  rw [h.inv.told p v hv registration hr hevent, hnode, h.data p v hv hfull,
    shown_eq_replay h.layered h.records h.server]
  rfl

end Replica

/-! ## Runs -/

end Repo

end Firebase
