import IChat.Firebase.Proof.EventCache
import IChat.Firebase.Proof.Nodes
import IChat.Firebase.View

/-!
# What the view processor tells

`Noted old new changes`: a change of what is shown is noted, unless a leaf or nothing is shown. Every
operation notes its changes, whatever the caches hold (`applyOperationOn_sound`), so that the last
value event tells what is shown (`applyOperationOn_told`), and no value event tells anything else
(`applyOperationOn_value`).
-/

open SortedMap KeyTree ImmutableTree

namespace Firebase

open FPath CompoundWrite WriteTree

/-! ## The filter -/

/-- Without a noted change the node is the same, or is a leaf or empty. -/
def Noted (old new : FNode) (changes : Changes) : Prop :=
  changes = [] → new = old ∨ ViewProcessor.isLeafOrEmpty new = true

namespace IndexedFilter

/-- A child is kept when it is the same at the affected path; else it is replaced, and that is noted
unless there was none and there is none. -/
theorem updateChildIn_cases (n : FNode) (k : String) (c : FNode) (p : Path) :
    ((n.child k).get p = c.get p ∧ (n.child k).isEmpty = c.isEmpty ∧
        updateChildIn n k c p = (n, [])) ∨
      ∃ changes, updateChildIn n k c p = (n.setChild k c, changes) ∧
        (changes = [] → c.isEmpty = true ∧ (n.child k).isEmpty = true) := by
  by_cases hsame : (n.child k).get p = c.get p ∧ (n.child k).isEmpty = c.isEmpty
  · exact .inl ⟨hsame.1, hsame.2, by simp [updateChildIn, hsame]⟩
  · right
    simp only [updateChildIn, hsame, ↓reduceIte]
    refine ⟨_, rfl, fun hc => ?_⟩
    by_cases hce : c.isEmpty = true
    · refine ⟨hce, ?_⟩
      simp only [hce, ↓reduceIte] at hc
      by_cases hk : hasChild n k = true
      · simp [hk] at hc
      · simpa [hasChild] using hk
    · simp only [hce, Bool.false_eq_true, ↓reduceIte] at hc
      split at hc <;> cases hc

/-- A child that is the same as the new one if it is so at the affected path is replaced. -/
theorem updateChildIn_fst {n : FNode} (h : n.WF) {k : String} {c : FNode} {p : Path}
    (hsame : (n.child k).get p = c.get p → n.child k = c) :
    (updateChildIn n k c p).1 = n.setChild k c := by
  obtain ⟨hget, -, heq⟩ | ⟨changes, heq, -⟩ := updateChildIn_cases n k c p
  · rw [heq, ← hsame hget, setChild_child h]
  · rw [heq]

theorem updateChildIn_noted {n : FNode} (h : n.WF) (k : String) (c : FNode) (p : Path)
    (hc : (updateChildIn n k c p).2 = []) : (updateChildIn n k c p).1 = n := by
  obtain ⟨-, -, heq⟩ | ⟨changes, heq, hnil⟩ := updateChildIn_cases n k c p
  · rw [heq]
  · rw [heq] at hc ⊢
    -- nothing was there, and nothing is written
    obtain ⟨hce, hne⟩ := hnil hc
    show n.setChild k c = n
    rw [eq_empty hce, ← eq_empty hne, setChild_child h]

theorem wf_updateChildIn {n : FNode} (h : n.WF) (k : String) {c : FNode} (hc : c.WF) (p : Path) :
    (updateChildIn n k c p).1.WF := by
  obtain ⟨-, -, heq⟩ | ⟨changes, heq, -⟩ := updateChildIn_cases n k c p <;> rw [heq]
  · exact h
  · exact h.setChild k hc

/-- A write below a child. -/
theorem updateChildIn_set {n : FNode} (h : n.WF) (m : FNode) (k : String) (p : Path) :
    (updateChildIn n k ((n.child k).set p m) p).1 = n.set (k :: p) m := by
  refine updateChildIn_fst h fun hget => ?_
  rw [get_set_self] at hget
  rw [← hget, set_get (h.child k)]

@[simp] theorem updateFullNode_fst (old new : FNode) : (updateFullNode old new).1 = new := rfl

theorem mem_childrenOf {n : FNode} (h : n.WF) {k : String} (hk : hasChild n k = true) :
    (k, n.child k) ∈ childrenOf n := by
  apply mem_of_find
  rw [WriteTree.find_childrenOf h, if_pos hk]

/-- Without a noted change the children are the same. -/
theorem updateFullNode_children {old new : FNode} (ho : old.WF) (hn : new.WF)
    (hc : (updateFullNode old new).2 = []) (k : String) : old.child k = new.child k := by
  simp only [updateFullNode, List.append_eq_nil_iff, List.filterMap_eq_nil_iff] at hc
  obtain ⟨hrem, hoth⟩ := hc
  by_cases hk : hasChild new k = true
  · have h := hoth _ (mem_childrenOf hn hk)
    simp only at h
    split at h
    · split at h
      · assumption
      · cases h
    · cases h
  · by_cases hk' : hasChild old k = true
    · have h := hrem _ (mem_childrenOf ho hk')
      simp only [hk, Bool.false_eq_true, ↓reduceIte] at h
      cases h
    · simp only [hasChild, Bool.not_eq_true, Bool.not_eq_false'] at hk hk'
      rw [eq_empty hk, eq_empty hk']

theorem updateFullNode_noted {old new : FNode} (ho : old.WF) (hn : new.WF) :
    Noted old new (updateFullNode old new).2 := by
  intro hc
  have hch := updateFullNode_children ho hn hc
  unfold ViewProcessor.isLeafOrEmpty
  cases hn with
  | leaf a => exact .inr rfl
  | @node cs hs hw hne =>
    cases ho with
    | node hs' hw' hne' =>
      left
      exact ext_child (.node hs hw hne) (.node hs' hw' hne') rfl fun k => (hch k).symm
    | leaf a =>
      -- a node with the children of a leaf is empty
      right
      cases cs with
      | nil => rfl
      | cons x cs =>
        obtain ⟨k, c⟩ := x
        have hk := hch k
        have he := hne k c (.head _)
        simp only [KeyTree.child, find, ↓reduceIte, Option.getD_some] at hk
        rw [← hk] at he
        cases he

end IndexedFilter

/-! ## What every operation keeps -/

/-- Both caches hold well-formed nodes, of which nothing is filtered out. -/
structure ViewCache.WF (v : ViewCache) : Prop where
  server : v.cachedServerSnap.node.WF
  event : v.cachedEventSnap.node.WF
  serverAll : v.cachedServerSnap.isFiltered = false
  eventAll : v.cachedEventSnap.isFiltered = false

namespace ViewProcessor

/-- What an operation makes of a view, whatever the caches hold: its changes are noted, and complete
server data stays complete. -/
structure Sound (v : ViewCache) (r : ViewCache × Changes) : Prop where
  wf : r.1.WF
  noted : Noted v.cachedEventSnap.node r.1.cachedEventSnap.node r.2
  kept : v.cachedServerSnap.isFullyInitialized = true →
    r.1.cachedServerSnap.isFullyInitialized = true

theorem Sound.refl {v : ViewCache} (h : v.WF) : Sound v (v, []) := ⟨h, fun _ => .inl rfl, id⟩

theorem Sound.trans {v : ViewCache} {r r' : ViewCache × Changes} (h : Sound v r)
    (h' : Sound r.1 r') : Sound v (r'.1, r.2 ++ r'.2) where
  wf := h'.wf
  noted hc := by
    obtain ⟨h1, h2⟩ := List.append_eq_nil_iff.1 hc
    rcases h'.noted h2 with he | hl
    · rcases h.noted h1 with he' | hl
      · exact .inl (he.trans he')
      · exact .inr (by rwa [he])
    · exact .inr hl
  kept hv := h'.kept (h.kept hv)

/-- An operation that only writes a new event cache. -/
theorem Sound.ofEvent {v : ViewCache} (h : v.WF) {n : FNode} {changes : Changes} (full : Bool)
    (hn : n.WF) (hc : Noted v.cachedEventSnap.node n changes) :
    Sound v (v.updateEventSnap n full false, changes) :=
  ⟨⟨h.server, hn, h.serverAll, rfl⟩, hc, id⟩

/-- New server data may come before an operation. -/
theorem Sound.updateServerSnap {v : ViewCache} {n : FNode} {full filtered : Bool}
    {r : ViewCache × Changes} (h : Sound (v.updateServerSnap n full filtered) r)
    (hfull : v.cachedServerSnap.isFullyInitialized = true → full = true) : Sound v r :=
  ⟨h.wf, h.noted, fun hv => h.kept (hfull hv)⟩

theorem noted_updateChildIn {n : FNode} (h : n.WF) (k : String) (c : FNode) (p : Path) :
    Noted n (IndexedFilter.updateChildIn n k c p).1 (IndexedFilter.updateChildIn n k c p).2 :=
  fun hc => .inl (IndexedFilter.updateChildIn_noted h k c p hc)

section

variable {t : WriteTree} (h : CompoundWrite.Nodes t.visibleWrites) {p : Path} {v : ViewCache}

theorem wf_getD_empty {o : Option FNode} (ho : ∀ n, o = some n → n.WF) :
    (o.getD KeyTree.empty).WF := by
  cases o with
  | none => exact .empty
  | some n => exact ho n rfl

theorem wf_completeServerSnap (hv : v.WF) : ∀ n ∈ v.completeServerSnap, n.WF := by
  intro n hn
  rw [ViewCache.completeServerSnap, Option.mem_def, Option.ite_none_right_eq_some] at hn
  obtain ⟨-, hn⟩ := hn
  rw [Option.some.injEq] at hn
  exact hn ▸ hv.server

include h

/-- The child shown after new server data. -/
theorem wf_newEventChild (hv : v.WF) {k : String} {r : Path} {n : FNode}
    (hn : (if v.cachedEventSnap.isCompleteForChild k then
        match (WriteTreeRef.mk p t).calculateEventCacheAfterServerOverwrite (k :: r)
          v.cachedServerSnap.node with
        | some eventChildUpdate =>
          some ((v.cachedEventSnap.node.child k).set r eventChildUpdate)
        | none => some (v.cachedEventSnap.node.child k)
      else (WriteTreeRef.mk p t).calculateCompleteChild k v.cachedServerSnap) = some n) : n.WF := by
  have hchild := hv.event.child k
  split at hn
  · split at hn
    · rename_i update hu
      rw [← Option.some.inj hn]
      exact hchild.set r (wf_calculateEventCacheAfterServerOverwrite h hv.server hu)
    · rw [← Option.some.inj hn]
      exact hchild
  · exact wf_calculateCompleteChild h hv.server hn

theorem sound_generate (hv : v.WF) (r : Path) :
    Sound v (generateEventCacheAfterServerEvent v r ⟨p, t⟩) := by
  unfold generateEventCacheAfterServerEvent
  split
  · exact .refl hv
  · cases r with
    | nil =>
      have hnode : ((if v.cachedServerSnap.isFiltered then
          (WriteTreeRef.mk p t).calculateCompleteEventChildren
            (v.completeServerSnap.getD KeyTree.empty)
          else ((WriteTreeRef.mk p t).calculateCompleteEventCache v.completeServerSnap).getD
            KeyTree.empty) : FNode).WF := by
        rw [if_neg (by simp [hv.serverAll])]
        exact wf_getD_empty fun n hn => wf_calculateCompleteEventCache h
          (wf_completeServerSnap hv) hn
      exact .ofEvent hv _ hnode (IndexedFilter.updateFullNode_noted hv.event hnode)
    | cons k r =>
      simp only
      split
      · rename_i n hn
        have hnode := wf_newEventChild h hv hn
        exact .ofEvent hv _ (IndexedFilter.wf_updateChildIn hv.event k hnode r)
          (noted_updateChildIn hv.event k n r)
      · exact .ofEvent hv _ hv.event fun _ => .inl rfl

theorem sound_applyServerOverwriteTo (hv : v.WF) (r : Path) {snap : FNode} (hs : snap.WF) :
    Sound v (applyServerOverwriteTo v r snap ⟨p, t⟩) := by
  have hupdate : ∀ n : FNode, n.WF → Sound v (generateEventCacheAfterServerEvent
      (v.updateServerSnap n (v.cachedServerSnap.isFullyInitialized || r.isEmpty) false) r
      ⟨p, t⟩) := by
    intro n hn
    have hv' : (v.updateServerSnap n
        (v.cachedServerSnap.isFullyInitialized || r.isEmpty) false).WF :=
      ⟨hn, hv.event, rfl, hv.eventAll⟩
    exact (sound_generate h hv' r).updateServerSnap fun hfull => by rw [hfull]; rfl
  unfold applyServerOverwriteTo
  cases r with
  | nil => exact hupdate snap hs
  | cons k r =>
    simp only
    split
    · exact .refl hv
    · exact hupdate _ (IndexedFilter.wf_updateChildIn hv.server k
        ((hv.server.child k).set r hs) r)

theorem wf_completeChild (hv : v.WF) {server : Option FNode} (hserver : ∀ n ∈ server, n.WF)
    {k : String} {n : FNode} (hn : completeChild ⟨p, t⟩ v server k = some n) : n.WF := by
  unfold completeChild at hn
  simp only at hn
  split at hn
  · rw [← Option.some.inj hn]
    exact hv.event.child k
  · refine wf_calculateCompleteChild h ?_ hn
    cases server with
    | none => exact hv.server
    | some s => exact hserver s rfl

theorem wf_overwrittenChild (hv : v.WF) {k : String} {r : Path} {snap : FNode} (hs : snap.WF)
    {server : Option FNode} (hserver : ∀ n ∈ server, n.WF) :
    (overwrittenChild v k r snap ⟨p, t⟩ server).WF := by
  unfold overwrittenChild
  split
  · exact hs
  · split
    · rename_i hc
      exact (wf_completeChild h hv hserver hc).set r hs
    · exact .empty

theorem sound_applyUserOverwriteTo (hv : v.WF) (r : Path) {snap : FNode} (hs : snap.WF)
    {server : Option FNode} (hserver : ∀ n ∈ server, n.WF) :
    Sound v (applyUserOverwriteTo v r snap ⟨p, t⟩ server) := by
  unfold applyUserOverwriteTo
  cases r with
  | nil => exact .ofEvent hv _ hs (IndexedFilter.updateFullNode_noted hv.event hs)
  | cons k r =>
    have hnew : (overwrittenChild v k r snap ⟨p, t⟩ server).WF :=
      wf_overwrittenChild h hv hs hserver
    simp only
    split
    · exact .refl hv
    · exact .ofEvent hv _ (IndexedFilter.wf_updateChildIn hv.event k hnew r)
        (noted_updateChildIn hv.event k _ r)

omit h in
/-- A number of steps. -/
theorem sound_steps {α : Type} {step : ViewCache → α → ViewCache × Changes} {xs : List α}
    (hstep : ∀ x ∈ xs, ∀ v : ViewCache, v.WF → Sound v (step v x)) (hv : v.WF) :
    Sound v (steps step v xs) := by
  have hrun : ∀ r, Sound v r → Sound v (xs.foldl (takeStep step) r) := by
    induction xs with
    | nil => exact fun r hr => hr
    | cons x xs ih =>
      intro r hr
      exact ih (fun y hy => hstep y (.tail _ hy)) _ (hr.trans (hstep x (.head _) r.1 hr.wf))
  exact hrun _ (.refl hv)

theorem sound_applyUserMergeTo (hv : v.WF) (r : Path) {m : CompoundWrite}
    (hm : CompoundWrite.Nodes m) {server : Option FNode} (hserver : ∀ n ∈ server, n.WF) :
    Sound v (applyUserMergeTo v r m ⟨p, t⟩ server) := by
  unfold applyUserMergeTo
  refine sound_steps (fun x hx v hv => ?_) hv
  refine sound_applyUserOverwriteTo h hv _ (hm.forEachPathSoFar [] x ?_) hserver
  rcases List.mem_append.1 hx with hx | hx <;> exact List.mem_of_mem_filter hx

theorem sound_applyServerMergeTo (hv : v.WF) (r : Path) {m : CompoundWrite}
    (hm : CompoundWrite.Nodes m) : Sound v (applyServerMergeTo v r m ⟨p, t⟩) := by
  unfold applyServerMergeTo
  simp only
  split
  · exact .refl hv
  · have hmerge : CompoundWrite.Nodes
        (if r.isEmpty then m else addCompoundWrite emptyWrite m r) := by
      split
      · exact hm
      · exact Nodes.addCompoundWrite ImmutableTree.All.empty hm r
    refine sound_steps (fun x hx v' hv' => ?_) hv
    refine sound_applyServerOverwriteTo h hv' _ (Nodes.applyToNode ?_ (hv.server.child x.1))
    apply hmerge.of_children
    rcases List.mem_append.1 hx with hx | hx <;> exact List.mem_of_mem_filter hx

omit h in
/-- A compound write collected write by write. -/
theorem nodes_foldl_addWrite {α : Type} {f : CompoundWrite → α → CompoundWrite} {xs : List α}
    (hf : ∀ c, CompoundWrite.Nodes c → ∀ x ∈ xs, CompoundWrite.Nodes (f c x)) :
    CompoundWrite.Nodes (xs.foldl f emptyWrite) :=
  List.foldlRecOn _ _ .empty fun c hc x hx => hf c hc x hx

theorem sound_ackUserWriteOn (hv : v.WF) (r : Path) (affectedTree : ImmutableTree String Unit) :
    Sound v (ackUserWriteOn v r affectedTree ⟨p, t⟩) := by
  unfold ackUserWriteOn
  split
  · exact .refl hv
  · simp only
    split
    · split
      · exact sound_applyServerOverwriteTo h hv r (hv.server.get r)
      · split
        · exact sound_applyServerMergeTo h hv r (nodes_foldl_addWrite fun c hc x hx =>
            hc.addWrite (wf_childrenOf hv.server x hx) _)
        · exact .refl hv
    · refine sound_applyServerMergeTo h hv r (nodes_foldl_addWrite fun c hc x hx => ?_)
      split
      · exact hc.addWrite (hv.server.get _) _
      · exact hc

omit h in
theorem sound_restoreLeaf {w : WriteTreeRef} {x : FNode × Changes} {old : FNode} (hx : x.1.WF)
    (hc : Noted old x.1 x.2) :
    (restoreLeaf v w x).1.WF ∧ Noted old (restoreLeaf v w x).1 (restoreLeaf v w x).2 := by
  obtain ⟨n, changes⟩ := x
  simp only [restoreLeaf]
  split
  · split
    · exact ⟨.leaf _, fun _ => .inr rfl⟩
    · exact ⟨hx, hc⟩
  · exact ⟨hx, hc⟩

theorem sound_revertedChild (hv : v.WF) (k : String) (r : Path) :
    (revertedChild v k r ⟨p, t⟩).1.WF ∧
      Noted v.cachedEventSnap.node (revertedChild v k r ⟨p, t⟩).1
        (revertedChild v k r ⟨p, t⟩).2 := by
  have hupdate : ∀ c : FNode, c.WF →
      (IndexedFilter.updateChildIn v.cachedEventSnap.node k c r).1.WF ∧
        Noted v.cachedEventSnap.node (IndexedFilter.updateChildIn v.cachedEventSnap.node k c r).1
          (IndexedFilter.updateChildIn v.cachedEventSnap.node k c r).2 := fun c hc =>
    ⟨IndexedFilter.wf_updateChildIn hv.event k hc r, noted_updateChildIn hv.event k c r⟩
  unfold revertedChild
  simp only
  split
  · rename_i c hc
    refine hupdate c ?_
    split at hc
    · rename_i hcalc
      rw [← Option.some.inj hc]
      exact wf_calculateCompleteChild h hv.server hcalc
    · rw [Option.ite_none_right_eq_some] at hc
      rw [← Option.some.inj hc.2]
      exact hv.event.child k
  · split
    · exact hupdate _ .empty
    · exact ⟨hv.event, fun _ => .inl rfl⟩

theorem sound_revertUserWriteOn (hv : v.WF) (r : Path) :
    Sound v (revertUserWriteOn v r ⟨p, t⟩) := by
  unfold revertUserWriteOn
  split
  · exact .refl hv
  · cases r with
    | nil =>
      have hnode : ((if v.cachedServerSnap.isFullyInitialized then
          ((WriteTreeRef.mk p t).calculateCompleteEventCache v.completeServerSnap).getD
            KeyTree.empty
          else (WriteTreeRef.mk p t).calculateCompleteEventChildren
            v.cachedServerSnap.node) : FNode).WF := by
        split
        · exact wf_getD_empty fun n hn => wf_calculateCompleteEventCache h
            (wf_completeServerSnap hv) hn
        · exact wf_calculateCompleteEventChildren h p hv.server
      exact .ofEvent hv _ hnode (IndexedFilter.updateFullNode_noted hv.event hnode)
    | cons k r =>
      obtain ⟨hn, hc⟩ := sound_revertedChild h hv k r
      obtain ⟨hn', hc'⟩ := sound_restoreLeaf hn hc
      exact .ofEvent hv _ hn' hc'

theorem sound_listenCompleteOldCache (hv : v.WF) (r : Path) :
    Sound v (listenCompleteOldCache v r ⟨p, t⟩) := by
  have hv' : (v.updateServerSnap v.cachedServerSnap.node
      (v.cachedServerSnap.isFullyInitialized || r.isEmpty) v.cachedServerSnap.isFiltered).WF :=
    ⟨hv.server, hv.event, hv.serverAll, hv.eventAll⟩
  exact (sound_generate h hv' r).updateServerSnap fun hfull => by rw [hfull]; rfl

end

end ViewProcessor

/-- The nodes an operation brings are well-formed. -/
def Operation.Nodes : Operation → Prop
  | .userOverwrite _ snap | .serverOverwrite _ snap => snap.WF
  | .userMerge _ children | .serverMerge _ children => CompoundWrite.Nodes children
  | .ackUserWrite _ _ _ | .listenComplete _ => True

/-- The last value event told what is shown, if all of it is known. -/
def Told (told : Option FNode) (v : ViewCache) : Prop :=
  v.cachedEventSnap.isFullyInitialized = true → told = some v.cachedEventSnap.node

namespace ViewProcessor

variable {t : WriteTree} {p : Path} {v : ViewCache}

/-- The operation's changes and its value event. -/
theorem applyOperationOn_sound (h : CompoundWrite.Nodes t.visibleWrites) (hv : v.WF)
    {op : Operation} (hop : op.Nodes) {server : Option FNode} (hserver : ∀ n ∈ server, n.WF) :
    ∃ changes, Sound v ((applyOperationOn v op ⟨p, t⟩ server).1, changes) ∧
      (applyOperationOn v op ⟨p, t⟩ server).2 =
        maybeAddValue v (applyOperationOn v op ⟨p, t⟩ server).1 changes := by
  cases op with
  | userOverwrite r snap => exact ⟨_, sound_applyUserOverwriteTo h hv r hop hserver, rfl⟩
  | serverOverwrite r snap => exact ⟨_, sound_applyServerOverwriteTo h hv r hop, rfl⟩
  | userMerge r m => exact ⟨_, sound_applyUserMergeTo h hv r hop hserver, rfl⟩
  | serverMerge r m => exact ⟨_, sound_applyServerMergeTo h hv r hop, rfl⟩
  | listenComplete r => exact ⟨_, sound_listenCompleteOldCache h hv r, rfl⟩
  | ackUserWrite r affectedTree revert =>
    cases revert with
    | true => exact ⟨_, sound_revertUserWriteOn h hv r, rfl⟩
    | false => exact ⟨_, sound_ackUserWriteOn h hv r affectedTree, rfl⟩

theorem maybeAddValue_told {v' : ViewCache} {changes : Changes} (hs : Sound v (v', changes))
    {told : Option FNode} (ht : Told told v) :
    Told ((maybeAddValue v v' changes).or told) v' := by
  intro hfull
  simp only [maybeAddValue, hfull, Bool.true_and]
  split
  · rfl
  · rename_i hno
    simp only [Bool.or_eq_true, Bool.not_eq_true', not_or, List.isEmpty_eq_false_iff,
      ne_eq, not_not, Bool.not_eq_false, Bool.and_eq_true, not_and] at hno
    obtain ⟨⟨hc, hold⟩, hleaf⟩ := hno
    rw [Option.none_or, ht hold, Option.some.injEq]
    rcases hs.noted hc with he | hl
    · exact he.symm
    · have hsame := hleaf hl
      simpa [ViewCache.completeEventSnap, hold] using hsame

/-- **The listeners are told**: after any operation the last value event raised tells what the view
shows, if all of it is known. -/
theorem applyOperationOn_told (h : CompoundWrite.Nodes t.visibleWrites) (p : Path) (hv : v.WF)
    {op : Operation} (hop : op.Nodes) {server : Option FNode} (hserver : ∀ n ∈ server, n.WF)
    {told : Option FNode} (ht : Told told v) :
    Told ((applyOperationOn v op ⟨p, t⟩ server).2.or told)
      (applyOperationOn v op ⟨p, t⟩ server).1 := by
  obtain ⟨changes, hs, hval⟩ := applyOperationOn_sound h hv hop hserver
  rw [hval]
  exact maybeAddValue_told hs ht

/-- **The listeners are told nothing else**: a value event tells what the view shows, all of which
is known. -/
theorem applyOperationOn_value (h : CompoundWrite.Nodes t.visibleWrites) (hv : v.WF)
    {op : Operation} (hop : op.Nodes) {server : Option FNode} (hserver : ∀ n ∈ server, n.WF)
    {n : FNode} (hn : (applyOperationOn v op ⟨p, t⟩ server).2 = some n) :
    (applyOperationOn v op ⟨p, t⟩ server).1.cachedEventSnap = ⟨n, true, false⟩ := by
  obtain ⟨changes, hs, hval⟩ := applyOperationOn_sound h hv hop hserver
  rw [hval] at hn
  have hall := hs.wf.eventAll
  generalize (applyOperationOn v op ⟨p, t⟩ server).1 = v' at hn hall ⊢
  simp only [maybeAddValue] at hn
  split at hn
  · rename_i hcond
    cases hn
    rw [Bool.and_eq_true] at hcond
    rw [← hcond.1, ← hall]
  · cases hn

end ViewProcessor

end Firebase
