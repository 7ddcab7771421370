import IChat.Firebase.Proof.Shown

/-!
# What the server has sent

`serverData op s` is what an operation makes of the data of the server. A view whose server data is
complete has the server's data of its location (`HasServerData`): operations keep this, though they
reach the view in pieces, and a new view takes it from one above.
-/

open SortedMap KeyTree ImmutableTree

namespace Firebase

open FPath CompoundWrite WriteTree

/-! ## Merges -/

namespace CompoundWrite

/-- The children of a node are written one by one. -/
theorem applyChildren_eq_foldl {cs : List (String × CompoundWrite)} (h : WF (.mk none cs))
    {n : FNode} (hn : n.WF) :
    applyChildren cs [] n =
      cs.foldl (fun m x => m.setChild x.1 (applyToNode x.2 (n.child x.1))) n := by
  suffices hgen : ∀ m : FNode, m.WF → (∀ x ∈ cs, m.child x.1 = n.child x.1) →
      applyChildren cs [] m =
        cs.foldl (fun m x => m.setChild x.1 (applyToNode x.2 (n.child x.1))) m from
    hgen n hn fun _ _ => rfl
  induction cs with
  | nil => exact fun _ _ _ => rfl
  | cons x cs ih =>
    obtain ⟨j, c⟩ := x
    intro m hm hsame
    cases h with
    | children hs hw hwr =>
      have hc := hw j c (.head _)
      have htail : WF (.mk none cs) := .children hs.tail (fun k' c' hm => hw k' c' (.tail _ hm))
        fun k' c' hm => hwr k' c' (.tail _ hm)
      rw [applyChildren_cons hc (hwr j c (.head _)) cs hm, List.foldl_cons, hsame _ (.head _)]
      refine ih htail _ (hm.setChild j (hc.applyToNode (hn.child j))) fun y hy => ?_
      rw [child_setChild, if_neg ((List.pairwise_cons.1 hs).1 y hy).ne', hsame y (.tail _ hy)]

/-- In which order does not matter. -/
theorem foldl_setChild_perm {α : Type} {xs ys : List (String × α)} (hp : xs.Perm ys)
    (hs : xs.Pairwise fun x y => x.1 ≠ y.1) {f : String × α → FNode} (hf : ∀ x ∈ xs, (f x).WF)
    {n : FNode} (hn : n.WF) :
    xs.foldl (fun m x => m.setChild x.1 (f x)) n = ys.foldl (fun m x => m.setChild x.1 (f x)) n := by
  induction hp generalizing n with
  | nil => rfl
  | cons x _ ih =>
    exact ih hs.of_cons (fun y hy => hf y (.tail _ hy)) (hn.setChild x.1 (hf x (.head _)))
  | swap x y l =>
    have hne : y.1 ≠ x.1 := (List.pairwise_cons.1 hs).1 x (.head _)
    have hcomm := set_comm hn (hf y (.head _)) (hf x (.tail _ (.head _)))
      (p := [y.1]) (q := [x.1]) (.inl hne)
    rw [List.foldl_cons, List.foldl_cons, List.foldl_cons, List.foldl_cons]
    exact congrArg (List.foldl (fun m x => m.setChild x.1 (f x)) · l) hcomm
  | trans h₁ _ ih₁ ih₂ =>
    rw [ih₁ hs hf hn]
    exact ih₂ (h₁.pairwise hs fun h => h.symm) (fun x hx => hf x (h₁.mem_iff.2 hx)) hn

/-- A merge below the root leaves nothing at the root. -/
theorem value_foldl_addWrite {c : CompoundWrite} (h : WF c) (hv : c.value = none)
    {ws : List (Path × FNode)} (hws : ∀ w ∈ ws, Stores w ∧ w.1 ≠ []) :
    (ws.foldl (fun c w => addWrite c w.2 w.1) c).value = none := by
  induction ws generalizing c with
  | nil => exact hv
  | cons w ws ih =>
    obtain ⟨hw, hne⟩ := hws w (.head _)
    obtain ⟨k, p, hp⟩ := List.exists_cons_of_ne_nil hne
    have hnone : (addWrite c w.2 w.1).value = none := by
      rw [hp, value_addWrite_cons h, hv]
      rfl
    exact ih (h.addWrite hw.1 hw.2 w.1) hnone fun w' hw' => hws w' (.tail _ hw')

/-- A merge as one from the root: the same writes. -/
theorem actualMerge_eq {m : CompoundWrite} (hm : WF m) (hroot : m.value = none) (r : Path) :
    let actualMerge := if r.isEmpty then m else addCompoundWrite emptyWrite m r
    WF actualMerge ∧ actualMerge.value = none ∧ ∀ n : FNode, n.WF →
      applyToNode actualMerge n = n.set r (applyToNode m (n.get r)) := by
  have hrootne : ∀ node, m.value = some node → node.isEmpty = false := by
    intro node hn
    rw [hroot] at hn
    cases hn
  have hst := forEach_stores hm hrootne
  cases r with
  | nil => exact ⟨hm, hroot, fun n _ => rfl⟩
  | cons k r =>
    have hall : ∀ w ∈ m.forEachPathSoFar (k :: r), Stores w ∧ w.1 ≠ [] := by
      intro w hw
      rw [forEachPathSoFar_append, List.mem_map] at hw
      obtain ⟨w', hw', rfl⟩ := hw
      exact ⟨hst w' hw', List.cons_ne_nil _ _⟩
    refine ⟨?_, ?_, fun n hn => applyToNode_addCompoundWrite .empty hm hrootne hn (k :: r)⟩
    · simp only [List.isEmpty_cons, Bool.false_eq_true, if_false, addCompoundWrite_eq]
      exact (applyToNode_foldl_addWrite .empty KeyTree.WF.empty fun w hw => (hall w hw).1).1
    · simp only [List.isEmpty_cons, Bool.false_eq_true, if_false, addCompoundWrite_eq]
      exact value_foldl_addWrite .empty rfl hall

end CompoundWrite

/-! ## What operations make of the server's data -/

namespace Operation

/-- The server's data after an operation. -/
def serverData : Operation → FNode → FNode
  | serverOverwrite path snap, s => s.set path snap
  | serverMerge path children, s => s.set path (applyToNode children (s.get path))
  | _, s => s

/-- What the server sends: nodes that are well-formed, merges of some that are not empty, and
answers to writes of a node. -/
def Sent : Operation → Prop
  | serverOverwrite _ snap => snap.WF
  | serverMerge _ children => CompoundWrite.WF children ∧ children.value = none
  | ackUserWrite _ affectedTree _ => affectedTree = initWithValue ()
  | _ => True

theorem Sent.operationForChild {op op' : Operation} (h : op.Sent) {k : String}
    (hop : op.operationForChild k = some op') : op'.Sent := by
  cases op with
  | serverOverwrite p n => cases p <;> cases hop; exacts [KeyTree.WF.child h k, h]
  | serverMerge p m =>
    cases p with
    | nil =>
      have hc := h.1.childCompoundWriteAtPath [k]
      simp only [Operation.operationForChild, mergeForChild] at hop
      split at hop
      · cases hop
      · split at hop <;> cases hop
        · rename_i hv
          exact hc.value_wf hv
        · rename_i hv
          exact ⟨hc, hv⟩
    | cons j p => cases hop; exact h
  | userMerge p m =>
    cases p with
    | nil =>
      simp only [Operation.operationForChild, mergeForChild] at hop
      split at hop
      · cases hop
      · split at hop <;> cases hop <;> trivial
    | cons j p => cases hop; trivial
  | userOverwrite p n => cases p <;> cases hop <;> trivial
  | listenComplete p => cases p <;> cases hop <;> trivial
  | ackUserWrite p a b =>
    cases p with
    | nil =>
      change a = initWithValue () at h
      subst h
      cases hop
      rfl
    | cons j p => cases hop; exact h

theorem Sent.operationForPath {op op' : Operation} (h : op.Sent) {p : Path}
    (hop : op.operationForPath p = some op') : op'.Sent := by
  induction p generalizing op with
  | nil => cases hop; exact h
  | cons k p ih =>
    obtain ⟨op₁, h₁, hop⟩ := Option.bind_eq_some_iff.1 hop
    exact ih (h.operationForChild h₁) hop

/-- Only the end of a listen ends one below. -/
theorem eq_listenComplete_of_child {op : Operation} {k : String} {q : Path}
    (hop : op.operationForChild k = some (.listenComplete q)) : ∃ path, op = .listenComplete path := by
  have hmerge : ∀ (m : CompoundWrite) (overwrite : Path → FNode → Operation)
      (merge : Path → CompoundWrite → Operation), (∀ n, overwrite [] n ≠ .listenComplete q) →
      (∀ m, merge [] m ≠ .listenComplete q) →
        mergeForChild m k overwrite merge ≠ some (.listenComplete q) := by
    intro m overwrite merge ho hm h
    unfold mergeForChild at h
    simp only at h
    split at h
    · cases h
    · split at h
      · exact ho _ (Option.some.inj h)
      · exact hm _ (Option.some.inj h)
  cases op with
  | listenComplete p => exact ⟨p, rfl⟩
  | userOverwrite p n => cases p <;> cases hop
  | serverOverwrite p n => cases p <;> cases hop
  | userMerge p m =>
    cases p with
    | nil => exact absurd hop (hmerge m _ _ nofun nofun)
    | cons j p => cases hop
  | serverMerge p m =>
    cases p with
    | nil => exact absurd hop (hmerge m _ _ nofun nofun)
    | cons j p => cases hop
  | ackUserWrite p a b =>
    cases p with
    | nil =>
      simp only [Operation.operationForChild] at hop
      split at hop <;> cases hop
    | cons j p => cases hop

theorem eq_listenComplete {op : Operation} {p q : Path}
    (hop : op.operationForPath p = some (.listenComplete q)) :
    ∃ path, op = .listenComplete path := by
  induction p generalizing op with
  | nil => exact ⟨q, Option.some.inj hop⟩
  | cons k p ih =>
    obtain ⟨op₁, h₁, hop⟩ := Option.bind_eq_some_iff.1 hop
    obtain ⟨path, rfl⟩ := ih hop
    exact eq_listenComplete_of_child h₁

/-- What a child is passed makes of the data there what the operation does. -/
theorem child_serverData {op : Operation} (h : op.Sent) {s : FNode} (hs : s.WF) {k : String}
    (hpath : op.path = [] ∨ ∃ p, op.path = k :: p) :
    (op.serverData s).child k =
      match op.operationForChild k with
      | some op' => op'.serverData (s.child k)
      | none => s.child k := by
  cases op with
  | serverOverwrite p n =>
    rcases hpath with hp | ⟨p', hp⟩ <;> cases hp
    · rfl
    · exact child_setChild_self s k _
  | serverMerge p m =>
    rcases hpath with hp | ⟨p', hp⟩ <;> cases hp
    · have hget := get_applyToNode h.1 hs [k]
      have hc := h.1.childCompoundWriteAtPath [k]
      simp only [Operation.operationForChild, mergeForChild]
      show (applyToNode m s).get [k] = _
      rw [hget]
      split
      · rename_i he
        split at he
        · rename_i hempty
          cases he
        · split at he <;> cases he
          · rename_i hv
            rw [hc.eq_initWithValue hv]
            rfl
          · rfl
      · rename_i he
        split at he
        · rename_i hempty
          rw [eq_empty hempty]
          rfl
        · split at he <;> cases he
    · exact child_setChild_self s k _
  | userMerge p m =>
    cases p with
    | nil =>
      simp only [Operation.operationForChild, mergeForChild]
      split
      · rename_i he
        split at he
        · cases he
        · split at he <;> cases he <;> rfl
      · rfl
    | cons j p => rfl
  | userOverwrite p n => cases p <;> rfl
  | listenComplete p => cases p <;> rfl
  | ackUserWrite p a b =>
    cases p with
    | nil =>
      simp only [Operation.operationForChild]
      split
      · rename_i he
        split at he <;> cases he <;> rfl
      · rfl
    | cons j p => rfl

theorem path_operationForChild {op op' : Operation} {k : String}
    (hop : op.operationForChild k = some op') : op'.path = op.path.tail := by
  have hmerge : ∀ (m : CompoundWrite) (overwrite : Path → FNode → Operation)
      (merge : Path → CompoundWrite → Operation), (∀ n, (overwrite [] n).path = []) →
      (∀ m, (merge [] m).path = []) → mergeForChild m k overwrite merge = some op' →
        op'.path = [] := by
    intro m overwrite merge ho hm h
    unfold mergeForChild at h
    simp only at h
    split at h
    · cases h
    · split at h <;> cases h
      · exact ho _
      · exact hm _
  cases op with
  | userOverwrite p n => cases p <;> cases hop <;> rfl
  | serverOverwrite p n => cases p <;> cases hop <;> rfl
  | userMerge p m =>
    cases p with
    | nil => exact hmerge m _ _ (fun _ => rfl) (fun _ => rfl) hop
    | cons j p => cases hop; rfl
  | serverMerge p m =>
    cases p with
    | nil => exact hmerge m _ _ (fun _ => rfl) (fun _ => rfl) hop
    | cons j p => cases hop; rfl
  | listenComplete p => cases p <;> cases hop <;> rfl
  | ackUserWrite p a b =>
    cases p with
    | nil =>
      simp only [operationForChild] at hop
      split at hop <;> cases hop <;> rfl
    | cons j p => cases hop; rfl

theorem wf_serverData {op : Operation} (h : op.Sent) {s : FNode} (hs : s.WF) :
    (op.serverData s).WF := by
  cases op with
  | serverOverwrite p n => exact hs.set p h
  | serverMerge p m => exact hs.set p (h.1.applyToNode (hs.get p))
  | _ => exact hs

theorem child_serverData_ne {op : Operation} {j : String} {q : Path} (hpath : op.path = j :: q)
    {k : String} (hne : k ≠ j) (s : FNode) : (op.serverData s).child k = s.child k := by
  cases op with
  | serverOverwrite p n =>
    cases hpath
    exact (child_setChild s j k _).trans (if_neg hne)
  | serverMerge p m =>
    cases hpath
    exact (child_setChild s j k _).trans (if_neg hne)
  | _ => rfl

/-- **What a location is passed** makes of the data there what the operation does. -/
theorem get_serverData {op : Operation} (h : op.Sent) {s : FNode} (hs : s.WF) (p : Path) :
    (op.serverData s).get p =
      match SyncTree.concerning op.path op p with
      | some op' => op'.serverData (s.get p)
      | none => s.get p := by
  induction p generalizing op s with
  | nil =>
    rw [SyncTree.concerning, if_pos (.inr List.nil_prefix)]
    rfl
  | cons k p ih =>
    rw [get_cons, get_cons]
    have hstep : (op.path = [] ∨ ∃ q, op.path = k :: q) →
        SyncTree.concerning op.path op (k :: p) =
          (op.operationForChild k).bind fun op' => SyncTree.concerning op'.path op' p := by
      intro hpath
      rcases Option.eq_none_or_eq_some (op.operationForChild k) with ho | ⟨op', ho⟩
      · rcases hpath with hp | ⟨q, hp⟩
        · rw [hp, SyncTree.concerning_nil, operationForPath, ho]
          rfl
        · rw [hp, SyncTree.concerning_cons, ho]
          rfl
      · have hop' := path_operationForChild ho
        rcases hpath with hp | ⟨q, hp⟩
        · rw [hp, SyncTree.concerning_nil, operationForPath, ho, Option.bind_some, Option.bind_some,
            hop', hp, List.tail_nil, SyncTree.concerning_nil]
        · rw [hp, SyncTree.concerning_cons, ho, Option.bind_some, Option.bind_some, hop', hp,
            List.tail_cons]
    have hdown : (op.path = [] ∨ ∃ q, op.path = k :: q) →
        ((op.serverData s).child k).get p =
          match SyncTree.concerning op.path op (k :: p) with
          | some op' => op'.serverData ((s.child k).get p)
          | none => (s.child k).get p := by
      intro hpath
      rw [hstep hpath, child_serverData h hs hpath]
      rcases Option.eq_none_or_eq_some (op.operationForChild k) with ho | ⟨op', ho⟩
      · rw [ho]
        rfl
      · rw [ho, Option.bind_some]
        exact ih (h.operationForChild ho) (hs.child k)
    cases hp : op.path with
    | nil => rw [← hp]; exact hdown (.inl hp)
    | cons j q =>
      by_cases hjk : k = j
      · rw [← hp]
        exact hdown (.inr ⟨q, by rw [hp, hjk]⟩)
      · rw [SyncTree.concerning_ne hjk, child_serverData_ne hp hjk]

end Operation

/-! ## The server data of a view -/

namespace ViewProcessor

variable {v : ViewCache}

theorem applyServerOverwriteTo_server (hv : v.WF) {r : Path}
    (hfull : v.cachedServerSnap.isFullyInitialized = true ∨ r = []) (snap : FNode)
    (w : WriteTreeRef) :
    (applyServerOverwriteTo v r snap w).1.cachedServerSnap =
      ⟨v.cachedServerSnap.node.set r snap, true, false⟩ := by
  unfold applyServerOverwriteTo
  cases r with
  | nil =>
    simp only [generate_server, ViewCache.updateServerSnap, List.isEmpty_nil, Bool.or_true]
    rfl
  | cons k r =>
    have hfull := hfull.resolve_right (List.cons_ne_nil k r)
    have hpath : v.cachedServerSnap.isCompleteForPath (k :: r) = true := by
      simp [CacheNode.isCompleteForPath, CacheNode.isCompleteForChild, hfull, hv.serverAll]
    simp only [hpath, Bool.not_true, Bool.false_and, Bool.false_eq_true, if_false, generate_server,
      ViewCache.updateServerSnap, hfull, Bool.true_or, IndexedFilter.updateChildIn_set hv.server]

/-- The server data after some of its children are replaced. -/
theorem foldl_applyServerOverwriteTo {t : WriteTree} (hw : CompoundWrite.Nodes t.visibleWrites)
    {p : Path} {α : Type} {f : String × α → FNode} {xs : List (String × α)}
    (hf : ∀ x ∈ xs, (f x).WF) (hv : v.WF)
    (hfull : v.cachedServerSnap.isFullyInitialized = true) :
    (xs.foldl (fun v x => (applyServerOverwriteTo v [x.1] (f x) ⟨p, t⟩).1) v).cachedServerSnap.node =
      xs.foldl (fun m x => m.setChild x.1 (f x)) v.cachedServerSnap.node := by
  induction xs generalizing v with
  | nil => rfl
  | cons x xs ih =>
    have hserver := applyServerOverwriteTo_server hv (.inl hfull) (r := [x.1]) (f x) ⟨p, t⟩
    have hsound := sound_applyServerOverwriteTo hw (p := p) hv [x.1] (hf x (.head _))
    have hrest := ih (fun y hy => hf y (.tail _ hy)) hsound.wf (by rw [hserver])
    rw [hserver] at hrest
    exact hrest

/-- A merge into complete server data writes all there is to write. -/
theorem applyServerMergeTo_server {t : WriteTree} (hw : CompoundWrite.Nodes t.visibleWrites)
    {p : Path} (hv : v.WF) (hfull : v.cachedServerSnap.isFullyInitialized = true)
    {m : CompoundWrite} (hm : CompoundWrite.WF m) (hroot : m.value = none) (r : Path) :
    (applyServerMergeTo v r m ⟨p, t⟩).1.cachedServerSnap.node =
      v.cachedServerSnap.node.set r (applyToNode m (v.cachedServerSnap.node.get r)) := by
  obtain ⟨hwf, hnone, happly⟩ := actualMerge_eq hm hroot r
  rw [← happly _ hv.server]
  have hchild : ∀ k, v.cachedServerSnap.isCompleteForChild k = true := fun k => by
    simp [CacheNode.isCompleteForChild, hfull, hv.serverAll]
  simp only [applyServerMergeTo, hfull, Bool.not_true, Bool.and_false, Bool.false_eq_true, if_false,
    hchild, Bool.false_and, Bool.not_false, Bool.and_true]
  generalize (if r.isEmpty then m else addCompoundWrite emptyWrite m r) = merge at hwf hnone ⊢
  obtain ⟨_, cs⟩ := merge
  cases hnone
  rw [children_mk]
  cases hwf with
  | children hs hc hcw =>
    have hn := hv.server
    have hf : ∀ x ∈ cs, (applyToNode x.2 (v.cachedServerSnap.node.child x.1)).WF := fun x hx =>
      (hc x.1 x.2 hx).applyToNode (hn.child x.1)
    have hperm := List.filter_append_perm (fun x => hasChild v.cachedServerSnap.node x.1) cs
    rw [fst_steps, foldl_applyServerOverwriteTo hw (fun x hx => hf x (hperm.mem_iff.1 hx)) hv hfull,
      ← foldl_setChild_perm hperm.symm (hs.imp fun hlt => hlt.ne) hf hn,
      ← applyChildren_eq_foldl (.children hs hc hcw) hn]
    rfl

theorem userMerge_server (r : Path) (m : CompoundWrite) (w : WriteTreeRef)
    (server : Option FNode) :
    (applyUserMergeTo v r m w server).1.cachedServerSnap = v.cachedServerSnap := by
  unfold applyUserMergeTo
  refine steps_fst (fun v' => v'.cachedServerSnap = v.cachedServerSnap) (fun x _ v' hv' => ?_) rfl
  rw [userOverwrite_server, hv']

/-- An acknowledgement writes complete server data over itself. -/
theorem ackUserWriteOn_server (hv : v.WF) (hfull : v.cachedServerSnap.isFullyInitialized = true)
    (r : Path) (w : WriteTreeRef) :
    (ackUserWriteOn v r (initWithValue ()) w).1.cachedServerSnap.node =
      v.cachedServerSnap.node := by
  have hpath : v.cachedServerSnap.isCompleteForPath r = true := by
    cases r <;> simp [CacheNode.isCompleteForPath, CacheNode.isCompleteForChild, hfull, hv.serverAll]
  unfold ackUserWriteOn
  simp only [initWithValue, value_mk, Option.isSome_some, if_true, hpath, Bool.or_true]
  split
  · rfl
  · rw [applyServerOverwriteTo_server hv (.inl hfull)]
    exact set_get hv.server r

/-- **Server data that is complete after an operation** was so before, and has changed as the
operation says, or has just come. -/
theorem serverData_applyOperationOn {t : WriteTree} (hw : CompoundWrite.Nodes t.visibleWrites)
    {p : Path} (hv : v.WF) {op : Operation} (hop : op.Sent)
    (hlisten : op = .listenComplete [] → v.cachedServerSnap.isFullyInitialized = true)
    (server : Option FNode)
    (hfull : (applyOperationOn v op ⟨p, t⟩ server).1.cachedServerSnap.isFullyInitialized = true) :
    (v.cachedServerSnap.isFullyInitialized = true ∧
      (applyOperationOn v op ⟨p, t⟩ server).1.cachedServerSnap.node =
        op.serverData v.cachedServerSnap.node) ∨
    ∃ snap, op = .serverOverwrite [] snap ∧
      (applyOperationOn v op ⟨p, t⟩ server).1.cachedServerSnap.node = snap := by
  cases op with
  | userOverwrite r snap =>
    have hserver := userOverwrite_server (v := v) r snap ⟨p, t⟩ server
    change (applyUserOverwriteTo v r snap ⟨p, t⟩ server).1.cachedServerSnap.isFullyInitialized = _
      at hfull
    rw [hserver] at hfull
    exact .inl ⟨hfull, congrArg CacheNode.node hserver⟩
  | userMerge r m =>
    have hserver := userMerge_server (v := v) r m ⟨p, t⟩ server
    change (applyUserMergeTo v r m ⟨p, t⟩ server).1.cachedServerSnap.isFullyInitialized = _ at hfull
    rw [hserver] at hfull
    exact .inl ⟨hfull, congrArg CacheNode.node hserver⟩
  | serverOverwrite r snap =>
    cases r with
    | nil =>
      exact .inr ⟨snap, rfl,
        congrArg CacheNode.node (applyServerOverwriteTo_server hv (.inr rfl) snap ⟨p, t⟩)⟩
    | cons k r =>
      have hfull : v.cachedServerSnap.isFullyInitialized = true :=
        (applyServerOverwriteTo_cons_full k r snap ⟨p, t⟩).symm.trans hfull
      have hserver := applyServerOverwriteTo_server hv (r := k :: r) (.inl hfull) snap ⟨p, t⟩
      exact .inl ⟨hfull, congrArg CacheNode.node hserver⟩
  | serverMerge r m =>
    have hfull : v.cachedServerSnap.isFullyInitialized = true :=
      (applyServerMergeTo_full r m ⟨p, t⟩).symm.trans hfull
    exact .inl ⟨hfull, applyServerMergeTo_server hw hv hfull hop.1 hop.2 r⟩
  | ackUserWrite r affected revert =>
    change affected = initWithValue () at hop
    subst hop
    cases revert with
    | true =>
      have hserver := revertUserWriteOn_server (v := v) r ⟨p, t⟩
      change (revertUserWriteOn v r ⟨p, t⟩).1.cachedServerSnap.isFullyInitialized = _ at hfull
      rw [hserver] at hfull
      exact .inl ⟨hfull, congrArg CacheNode.node hserver⟩
    | false =>
      cases hold : v.cachedServerSnap.isFullyInitialized with
      | true => exact .inl ⟨rfl, ackUserWriteOn_server hv hold r ⟨p, t⟩⟩
      | false => cases (ackUserWriteOn_full hold r ⟨p, t⟩).symm.trans hfull
  | listenComplete r =>
    have hserver : (listenCompleteOldCache v r ⟨p, t⟩).1.cachedServerSnap =
        ⟨v.cachedServerSnap.node, v.cachedServerSnap.isFullyInitialized || r.isEmpty,
          v.cachedServerSnap.isFiltered⟩ := generate_server r _
    have hfull : v.cachedServerSnap.isFullyInitialized = true := by
      cases r with
      | nil => exact hlisten rfl
      | cons k r =>
        change (listenCompleteOldCache v (k :: r) ⟨p, t⟩).1.cachedServerSnap.isFullyInitialized = _
          at hfull
        rw [hserver] at hfull
        simpa using hfull
    refine .inl ⟨hfull, ?_⟩
    show (listenCompleteOldCache v r ⟨p, t⟩).1.cachedServerSnap.node = _
    rw [hserver]
    rfl

end ViewProcessor

namespace SyncTree

variable {t : SyncTree} {s : FNode}

/-- Every view whose server data is complete has the server's data of its location. -/
def HasServerData (s : FNode) (tree : ImmutableTree String View) : Prop :=
  ∀ p v, tree.valueAtPath p = some v → v.viewCache.cachedServerSnap.isFullyInitialized = true →
    v.viewCache.cachedServerSnap.node = s.get p

/-- **An operation** changes the server data of every view as it changes the server's. -/
theorem hasServerData_operation (h : ViewsWF [] t.syncPointTree)
    (hw : CompoundWrite.Nodes t.pendingWriteTree.visibleWrites) {op : Operation} (hop : op.Nodes)
    (hsent : op.Sent) (hs : s.WF) (hd : HasServerData s t.syncPointTree)
    (hlisten : ∀ path, op = .listenComplete path → ∀ r v,
      t.syncPointTree.valueAtPath (path ++ r) = some v →
        v.viewCache.cachedServerSnap.isFullyInitialized = true) :
    HasServerData (op.serverData s) (t.applyOperationToSyncPoints op).1.syncPointTree := by
  intro p v' hv' hfull
  rw [Operation.get_serverData hsent hs]
  obtain ⟨v, hv, ⟨hc, rfl, -⟩ | ⟨op', server, hc, -, -, rfl, -⟩⟩ :=
    view_applyOperationToSyncPoints h hop hv'
  · rw [hc]
    exact hd p v' hv hfull
  · have hpath := hc
    rw [concerning, Option.ite_none_right_eq_some] at hpath
    have hsent' : op'.Sent := hsent.operationForPath hpath.2
    have hlisten' : op' = .listenComplete [] →
        v.viewCache.cachedServerSnap.isFullyInitialized = true := by
      rintro rfl
      obtain ⟨path, rfl⟩ := Operation.eq_listenComplete hpath.2
      rcases concerning_cases (f := Operation.listenComplete) (fun _ _ => rfl) path p with
        ⟨-, hno⟩ | ⟨r, rfl, -⟩ | ⟨r, rfl, hr⟩
      · cases hc.symm.trans hno
      · exact hlisten path rfl r v hv
      · cases hc.symm.trans hr
        exact hlisten _ rfl [] v (by rwa [List.append_nil, List.append_nil])
    rw [hc]
    rcases ViewProcessor.serverData_applyOperationOn hw (h.views p v hv).2 hsent' hlisten' server
      hfull with ⟨hold, hnode⟩ | ⟨snap, rfl, hnode⟩
    · rw [← hd p v hv hold]
      exact hnode
    · exact hnode

/-- A new view takes the server data from a view above, if that has all of it. -/
theorem serverCacheForQuery_full (hd : HasServerData s t.syncPointTree) {p : Path}
    (hfull : (t.serverCacheForQuery p).isFullyInitialized = true) :
    (t.serverCacheForQuery p).node = s.get p := by
  unfold serverCacheForQuery at hfull ⊢
  simp only at hfull ⊢
  split
  · rename_i n hn
    obtain ⟨q, v, ⟨r, rfl⟩, hv, hb⟩ := findOnPath_eq_some hn
    rw [List.nil_append, relativePathFrom_append] at hb
    obtain ⟨m, hm, rfl⟩ := Option.map_eq_some_iff.1 hb
    rw [ViewCache.completeServerSnap, Option.ite_none_right_eq_some] at hm
    obtain ⟨hold, hm⟩ := hm
    cases hm
    rw [get_append, hd q v hv hold]
  · rename_i hnone
    rw [hnone] at hfull
    cases hfull

theorem hasServerData_addEventRegistration (hd : HasServerData s t.syncPointTree)
    (registration : Nat) (p : Path) :
    HasServerData s (t.addEventRegistration registration p).1.syncPointTree := by
  obtain ⟨v, he, -, hcases⟩ := t.addEventRegistration_cases registration p
  intro q v' hv' hfull
  rw [he, valueAtPath_setValue] at hv'
  split at hv'
  · rename_i hq
    cases hv'
    subst hq
    rcases hcases with ⟨u, hu, rfl⟩ | ⟨-, rfl⟩
    · exact hd q u hu hfull
    · have hcache : (initialViewCache ⟨q, t.pendingWriteTree⟩
          (t.serverCacheForQuery q)).cachedServerSnap = t.serverCacheForQuery q := by
        unfold initialViewCache
        simp only
        split <;> rfl
      simp only [hcache] at hfull ⊢
      exact serverCacheForQuery_full hd hfull
  · exact hd q v' hv' hfull

theorem hasServerData_removeEventRegistration (hd : HasServerData s t.syncPointTree)
    (registration : Option Nat) (p : Path) (cancelled : Bool) :
    HasServerData s (t.removeEventRegistration registration p cancelled).1.syncPointTree := by
  intro q v' hv'
  obtain ⟨v, hv, -, hcache, -⟩ := view_removeEventRegistration hv'
  rw [hcache]
  exact hd q v hv

end SyncTree

end Firebase
