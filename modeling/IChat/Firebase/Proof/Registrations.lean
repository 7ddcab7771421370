import IChat.Firebase.Proof.SyncTree

/-!
# Registrations

What adding and removing listeners makes of the sync tree (`addEventRegistration_cases`,
`removeEventRegistration_cases`). The caches of a new view are well-formed, whether it takes its
server data from a view above or from those of its children.
-/

open SortedMap KeyTree ImmutableTree

namespace Firebase

open FPath CompoundWrite WriteTree

namespace SyncTree

variable {t : SyncTree}

/-! ## The caches of a new view -/

theorem wf_serverCacheForQuery (h : ViewsWF [] t.syncPointTree) (p : Path) :
    (t.serverCacheForQuery p).node.WF := by
  have hview : ∀ q v r, t.syncPointTree.valueAtPath q = some v →
      ∀ n ∈ v.completeServerCacheFor r, n.WF := by
    intro q v r hv n hn
    obtain ⟨s, hs, rfl⟩ := Option.map_eq_some_iff.1 hn
    exact (ViewProcessor.wf_completeServerSnap (h.views q v hv).2 s hs).get r
  unfold serverCacheForQuery
  simp only
  split
  · rename_i n hn
    obtain ⟨q, v, -, hv, hb⟩ := findOnPath_eq_some hn
    exact hview q v _ hv n hb
  · refine List.foldlRecOn _ _ .empty fun node hnode x hx => ?_
    obtain ⟨k, c⟩ := x
    cases hc : c.value.bind fun view => view.completeServerCacheFor [] with
    | none => exact hnode
    | some n =>
      obtain ⟨v, hv, hn⟩ := Option.bind_eq_some_iff.1 hc
      refine hnode.setChild k (hview (p ++ [k]) v [] ?_ n hn)
      have hsub := h.ordered.subtreeAtPath p
      rw [← valueAtPath_subtreeAtPath]
      generalize t.syncPointTree.subtreeAtPath p = sub at hsub hx
      cases hsub with
      | mk hs hcs =>
        rw [valueAtPath_cons, child_mk, find_of_mem hs hx, Option.getD_some, valueAtPath_nil, hv]

theorem wf_initialViewCache {w : WriteTreeRef}
    (hw : CompoundWrite.Nodes w.writeTree.visibleWrites) {cache : CacheNode} (hc : cache.node.WF)
    (hall : cache.isFiltered = false) : (initialViewCache w cache).WF := by
  unfold initialViewCache
  simp only
  split
  · rename_i n hn
    refine ⟨hc, wf_calculateCompleteEventCache hw (fun m hm => ?_) hn, hall, rfl⟩
    split at hm <;> cases hm
    exact hc
  · exact ⟨hc, wf_calculateCompleteEventChildren hw _ hc, hall, rfl⟩

theorem isFiltered_serverCacheForQuery (p : Path) :
    (t.serverCacheForQuery p).isFiltered = false := by
  unfold serverCacheForQuery
  simp only
  split <;> rfl

/-! ## Adding -/

/-- The view that a new registration is for. -/
theorem addEventRegistration_cases (t : SyncTree) (registration : Nat) (p : Path) :
    ∃ v, (t.addEventRegistration registration p).1 =
        { t with syncPointTree := setValue v t.syncPointTree p } ∧
      (t.addEventRegistration registration p).2.1 = v.initialEvents registration ∧
      ((∃ u, t.syncPointTree.valueAtPath p = some u ∧
          v = { u with eventRegistrations := u.eventRegistrations ++ [registration] }) ∨
        (t.syncPointTree.valueAtPath p = none ∧ v = ⟨p,
          initialViewCache ⟨p, t.pendingWriteTree⟩ (t.serverCacheForQuery p), [registration]⟩)) := by
  unfold addEventRegistration
  cases hv : t.syncPointTree.valueAtPath p with
  | some u => exact ⟨_, rfl, rfl, .inl ⟨u, rfl, rfl⟩⟩
  | none => exact ⟨_, rfl, rfl, .inr ⟨rfl, rfl⟩⟩

theorem viewsWF_setValue {tree : ImmutableTree String View} (h : ViewsWF [] tree) {v : View}
    {p : Path} (hp : v.path = p) (hv : v.viewCache.WF) : ViewsWF [] (setValue v tree p) where
  ordered := h.ordered.setValue v p
  views q u hu := by
    rw [valueAtPath_setValue] at hu
    split at hu
    · rename_i hq
      cases hu
      exact ⟨by rw [hp, hq]; rfl, hv⟩
    · exact h.views q u hu

theorem viewsWF_addEventRegistration (h : ViewsWF [] t.syncPointTree)
    (hw : CompoundWrite.Nodes t.pendingWriteTree.visibleWrites) (registration : Nat) (p : Path) :
    ViewsWF [] (t.addEventRegistration registration p).1.syncPointTree := by
  obtain ⟨v, he, -, ⟨u, hu, rfl⟩ | ⟨-, rfl⟩⟩ := t.addEventRegistration_cases registration p
  · rw [he]
    exact viewsWF_setValue h (h.views p u hu).1 (h.views p u hu).2
  · rw [he]
    exact viewsWF_setValue h rfl
      (wf_initialViewCache hw (wf_serverCacheForQuery h p) (isFiltered_serverCacheForQuery p))

/-- A new registration is told at its location only. -/
theorem path_addEventRegistration (h : ViewsWF [] t.syncPointTree) (registration : Nat) (p : Path) :
    ∀ e ∈ (t.addEventRegistration registration p).2.1, e.path = p := by
  obtain ⟨v, -, hevents, hcases⟩ := t.addEventRegistration_cases registration p
  have hpath : v.path = p := by
    rcases hcases with ⟨u, hu, rfl⟩ | ⟨-, rfl⟩
    · exact (h.views p u hu).1
    · rfl
  rw [hevents, ← hpath]
  exact View.path_generateEvents v _ _

/-! ## Removing -/

/-- What becomes of the view that a registration is removed from. -/
theorem removeEventRegistration_cases (t : SyncTree) (registration : Option Nat) (p : Path)
    (cancelled : Bool) :
    ∃ tree, (t.removeEventRegistration registration p cancelled).1 =
        { t with syncPointTree := tree } ∧
      (tree = t.syncPointTree ∨ tree = t.syncPointTree.removeValueAtPath p ∨
        ∃ v, t.syncPointTree.valueAtPath p = some v ∧
          (v.removeEventRegistration registration).eventRegistrations ≠ [] ∧
          tree = setValue (v.removeEventRegistration registration) t.syncPointTree p) := by
  unfold removeEventRegistration
  cases hv : t.syncPointTree.valueAtPath p with
  | none => exact ⟨_, rfl, .inl rfl⟩
  | some v =>
    by_cases hnone : (v.removeEventRegistration registration).eventRegistrations.isEmpty = true
    · simp only [if_pos hnone, removeView]
      refine ⟨_, ?_, .inr (.inl rfl)⟩
      split <;> rfl
    · simp only [if_neg hnone]
      exact ⟨_, rfl, .inr (.inr ⟨v, rfl, fun h => hnone (List.isEmpty_iff.2 h), rfl⟩)⟩

/-- Where there is a view after a removal, there was one before, with the same cache. -/
theorem view_removeEventRegistration {registration : Option Nat} {p : Path} {cancelled : Bool}
    {q : Path} {v' : View} (hv' : (t.removeEventRegistration registration p
      cancelled).1.syncPointTree.valueAtPath q = some v') :
    ∃ v, t.syncPointTree.valueAtPath q = some v ∧ v'.path = v.path ∧
      v'.viewCache = v.viewCache ∧ (∀ h ∈ v'.eventRegistrations, h ∈ v.eventRegistrations) ∧
      (v.eventRegistrations ≠ [] → v'.eventRegistrations ≠ []) := by
  obtain ⟨tree, he, htree⟩ := t.removeEventRegistration_cases registration p cancelled
  rw [he] at hv'
  rcases htree with rfl | rfl | ⟨v, hv, hne, rfl⟩
  · exact ⟨v', hv', rfl, rfl, fun _ => id, id⟩
  · rw [valueAtPath_removeValueAtPath] at hv'
    split at hv'
    · cases hv'
    · exact ⟨v', hv', rfl, rfl, fun _ => id, id⟩
  · rw [valueAtPath_setValue] at hv'
    split at hv'
    · rename_i hq
      cases hv'
      refine ⟨v, by rw [hq, hv], rfl, rfl, fun h hh => ?_, fun _ => hne⟩
      cases registration with
      | none => cases hh
      | some g => exact List.mem_of_mem_filter hh
    · exact ⟨v', hv', rfl, rfl, fun _ => id, id⟩

theorem ordered_removeEventRegistration (h : ViewsWF [] t.syncPointTree)
    (registration : Option Nat) (p : Path) (cancelled : Bool) :
    Ordered (t.removeEventRegistration registration p cancelled).1.syncPointTree := by
  obtain ⟨tree, he, htree⟩ := t.removeEventRegistration_cases registration p cancelled
  rw [he]
  rcases htree with rfl | rfl | ⟨v, -, -, rfl⟩
  · exact h.ordered
  · exact h.ordered.removeValueAtPath p
  · exact h.ordered.setValue _ p

theorem viewsWF_removeEventRegistration (h : ViewsWF [] t.syncPointTree)
    (registration : Option Nat) (p : Path) (cancelled : Bool) :
    ViewsWF [] (t.removeEventRegistration registration p cancelled).1.syncPointTree := by
  refine ⟨ordered_removeEventRegistration h registration p cancelled, fun q v' hv' => ?_⟩
  obtain ⟨v, hv, hpath, hcache, -⟩ := view_removeEventRegistration hv'
  rw [hpath, hcache]
  exact h.views q v hv

end SyncTree

end Firebase
