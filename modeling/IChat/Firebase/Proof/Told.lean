import IChat.Firebase.Proof.Registrations

/-!
# What the listeners have been told

`AllTold raised tree`: every registration was last told what its location shows, if all of it is
known. Operations keep this whatever they change (`SyncTree.allTold_applyOperationToSyncPoints`),
and so do registrations: a new one is told at once.
-/

open SortedMap KeyTree ImmutableTree

namespace Firebase

open FPath CompoundWrite WriteTree

/-! ## What a registration was last told -/

/-- The last value among events, for a registration. -/
def lastIn (events : List DataEvent) (registration : Nat) : Option FNode :=
  (events.filter fun e => e.eventRegistration == registration).getLast?.map (·.snapshot)

/-- What a registration at a location was last told. -/
def lastTold (events : List DataEvent) (p : Path) (registration : Nat) : Option FNode :=
  lastIn (eventsAt p events) registration

theorem lastIn_append (es es' : List DataEvent) (h : Nat) :
    lastIn (es ++ es') h = (lastIn es' h).or (lastIn es h) := by
  simp only [lastIn, List.filter_append, List.getLast?_append]
  cases (es'.filter fun e => e.eventRegistration == h).getLast? <;> rfl

theorem lastTold_append (es es' : List DataEvent) (p : Path) (h : Nat) :
    lastTold (es ++ es') p h = (lastTold es' p h).or (lastTold es p h) := by
  rw [lastTold, eventsAt_append, lastIn_append]
  rfl

namespace View

theorem lastIn_generateEvents (v : View) (value : Option FNode) {registrations : List Nat} {h : Nat}
    (hm : h ∈ registrations) : lastIn (v.generateEvents value registrations) h = value := by
  cases value with
  | none => rfl
  | some n =>
    have hmem : DataEvent.mk v.path h n ∈
        (v.generateEvents (some n) registrations).filter fun e => e.eventRegistration == h :=
      List.mem_filter.2 ⟨List.mem_map.2 ⟨h, hm, rfl⟩, by simp⟩
    unfold lastIn
    cases hlast : ((v.generateEvents (some n) registrations).filter fun e =>
        e.eventRegistration == h).getLast? with
    | none =>
      rw [List.getLast?_eq_none_iff] at hlast
      rw [hlast] at hmem
      cases hmem
    | some e =>
      obtain ⟨h', -, he⟩ := List.mem_map.1 (List.mem_of_mem_filter (List.mem_of_getLast? hlast))
      rw [← he]
      rfl

theorem lastIn_generateEvents_ne (v : View) (value : Option FNode) {h h' : Nat} (hne : h' ≠ h) :
    lastIn (v.generateEvents value [h]) h' = none := by
  cases value with
  | none => rfl
  | some n => simp [lastIn, generateEvents, hne.symm]

end View

/-- Every registration has been told what its location shows. -/
def AllTold (raised : List DataEvent) (tree : ImmutableTree String View) : Prop :=
  ∀ p v, tree.valueAtPath p = some v → ∀ h ∈ v.eventRegistrations,
    Told (lastTold raised p h) v.viewCache

/-- An event tells a listener of a location what is shown there, all of which is known. -/
def Shown (tree : ImmutableTree String View) (e : DataEvent) : Prop :=
  ∃ v, tree.valueAtPath e.path = some v ∧ e.eventRegistration ∈ v.eventRegistrations ∧
    v.viewCache.cachedEventSnap = ⟨e.snapshot, true, false⟩

namespace View

/-- The events of a view whose value is the one it shows. -/
theorem shown_generateEvents {tree : ImmutableTree String View} {v : View} {value : Option FNode}
    (hv : tree.valueAtPath v.path = some v)
    (hvalue : ∀ n ∈ value, v.viewCache.cachedEventSnap = ⟨n, true, false⟩)
    {registrations : List Nat} (hsub : ∀ h ∈ registrations, h ∈ v.eventRegistrations) :
    ∀ e ∈ v.generateEvents value registrations, Shown tree e := by
  intro e he
  cases value with
  | none => cases he
  | some n =>
    obtain ⟨h, hh, rfl⟩ := List.mem_map.1 he
    exact ⟨v, hv, hsub h hh, hvalue n rfl⟩

end View

namespace SyncTree

/-- Every location that is observed has a listener. -/
def Registered (tree : ImmutableTree String View) : Prop :=
  ∀ p v, tree.valueAtPath p = some v → v.eventRegistrations ≠ []

/-- **An operation tells the listeners** what it changes. -/
theorem allTold_applyOperationToSyncPoints {t : SyncTree} (h : ViewsWF [] t.syncPointTree)
    (hw : CompoundWrite.Nodes t.pendingWriteTree.visibleWrites) {op : Operation} (hop : op.Nodes)
    {raised : List DataEvent} (ht : AllTold raised t.syncPointTree) :
    AllTold (raised ++ (t.applyOperationToSyncPoints op).2)
      (t.applyOperationToSyncPoints op).1.syncPointTree := by
  intro p v' hv' g hg
  obtain ⟨v, hv, ⟨-, rfl, hevents⟩ | ⟨op', server, -, hop', hserver, rfl, hevents⟩⟩ :=
    view_applyOperationToSyncPoints h hop hv'
  · rw [lastTold_append, lastTold, hevents]
    exact ht p v' hv g hg
  · rw [lastTold_append, lastTold, hevents]
    have htold := ViewProcessor.applyOperationOn_told hw p (h.views p v hv).2 hop' hserver
      (ht p v hv g hg)
    have hlast := View.lastIn_generateEvents v (ViewProcessor.applyOperationOn v.viewCache op'
      ⟨p, t.pendingWriteTree⟩ server).2 hg
    rw [← hlast] at htold
    exact htold

/-- **An operation tells nothing else**: the events it raises are true of what is shown after it. -/
theorem shown_applyOperationToSyncPoints {t : SyncTree} (h : ViewsWF [] t.syncPointTree)
    (hw : CompoundWrite.Nodes t.pendingWriteTree.visibleWrites) {op : Operation} (hop : op.Nodes) :
    ∀ e ∈ (t.applyOperationToSyncPoints op).2,
      Shown (t.applyOperationToSyncPoints op).1.syncPointTree e := by
  intro e he
  have hmem : e ∈ eventsAt e.path (t.applyOperationToSyncPoints op).2 :=
    List.mem_filter.2 ⟨he, by simp⟩
  have hp := passed_applyOperationToSyncPoints h op e.path
  rcases Option.eq_none_or_eq_some (t.syncPointTree.valueAtPath e.path) with hv | ⟨v, hv⟩
  · rw [hv] at hp
    rw [hp.2] at hmem
    cases hmem
  rcases Option.eq_none_or_eq_some (concerning op.path op e.path) with ho | ⟨op', ho⟩
  · rw [hv, ho] at hp
    rw [hp.2] at hmem
    cases hmem
  rw [hv, ho] at hp
  obtain ⟨server, hserver, hv', hevents⟩ := hp
  have hop' : op'.Nodes := by
    rw [concerning, Option.ite_none_right_eq_some] at ho
    exact Operation.nodes_operationForPath hop ho.2
  have hpath : v.path = e.path := (h.views _ v hv).1
  rw [hevents] at hmem
  refine View.shown_generateEvents (v := (v.applyOperation op' ⟨e.path, t.pendingWriteTree⟩
    server).1) (by rw [← hv', ← hpath]; rfl) (fun n hn => ?_) (fun _ => id) e hmem
  exact ViewProcessor.applyOperationOn_value hw (h.views _ v hv).2 hop' hserver hn

theorem registered_applyOperationToSyncPoints {t : SyncTree} (h : ViewsWF [] t.syncPointTree)
    {op : Operation} (hop : op.Nodes) (hr : Registered t.syncPointTree) :
    Registered (t.applyOperationToSyncPoints op).1.syncPointTree := by
  intro p v' hv'
  obtain ⟨v, hv, ⟨-, rfl, -⟩ | ⟨op', server, -, -, -, rfl, -⟩⟩ :=
    view_applyOperationToSyncPoints h hop hv'
  · exact hr p v' hv
  · exact hr p v hv

/-- **A new registration** is told what there is, and the others need not be. -/
theorem allTold_addEventRegistration {t : SyncTree} (h : ViewsWF [] t.syncPointTree)
    {raised : List DataEvent} (ht : AllTold raised t.syncPointTree) (registration : Nat) (p : Path) :
    AllTold (raised ++ (t.addEventRegistration registration p).2.1)
      (t.addEventRegistration registration p).1.syncPointTree := by
  obtain ⟨v, he, hevents, hcases⟩ := t.addEventRegistration_cases registration p
  have hat := path_addEventRegistration h registration p
  intro q v' hv' g hg
  rw [he, valueAtPath_setValue] at hv'
  rw [lastTold_append]
  split at hv'
  · rename_i hq
    cases hv'
    subst hq
    rw [lastTold, eventsAt_eq_self hat, hevents, View.initialEvents]
    by_cases hnew : g = registration
    · subst hnew
      rw [View.lastIn_generateEvents v _ (List.mem_singleton_self g)]
      intro hfull
      rw [ViewCache.completeEventSnap, if_pos hfull]
      rfl
    · rw [View.lastIn_generateEvents_ne v _ hnew, Option.none_or]
      rcases hcases with ⟨u, hu, rfl⟩ | ⟨-, rfl⟩
      · refine ht q u hu g ((List.mem_append.1 hg).resolve_right fun hg => ?_)
        exact hnew (List.mem_singleton.1 hg)
      · exact absurd (List.mem_singleton.1 hg) hnew
  · rename_i hq
    have hno : eventsAt q (t.addEventRegistration registration p).2.1 = [] :=
      eventsAt_eq_nil fun e hmem heq => hq (by rw [← heq, hat e hmem])
    rw [lastTold, hno]
    exact ht q v' hv' g hg

theorem shown_addEventRegistration {t : SyncTree} (h : ViewsWF [] t.syncPointTree)
    (hw : CompoundWrite.Nodes t.pendingWriteTree.visibleWrites) (registration : Nat) (p : Path) :
    ∀ e ∈ (t.addEventRegistration registration p).2.1,
      Shown (t.addEventRegistration registration p).1.syncPointTree e := by
  obtain ⟨v, he, hevents, hcases⟩ := t.addEventRegistration_cases registration p
  have hviews := viewsWF_addEventRegistration h hw registration p
  rw [he] at hviews ⊢
  have hv : (setValue v t.syncPointTree p).valueAtPath p = some v := by
    rw [valueAtPath_setValue, if_pos rfl]
  obtain ⟨hpath, hwf⟩ := hviews.views p v hv
  rw [hevents, View.initialEvents]
  refine View.shown_generateEvents (by rw [hpath]; exact hv) (fun n hn => ?_) fun g hg => ?_
  · rw [Option.mem_def, ViewCache.completeEventSnap, Option.ite_none_right_eq_some] at hn
    obtain ⟨hfull, hn⟩ := hn
    cases hn
    rw [← hfull, ← hwf.eventAll]
  · rw [List.mem_singleton.1 hg]
    rcases hcases with ⟨u, -, rfl⟩ | ⟨-, rfl⟩
    · exact List.mem_append_right _ (List.mem_singleton_self registration)
    · exact List.mem_singleton_self registration

theorem registered_addEventRegistration {t : SyncTree} (hr : Registered t.syncPointTree)
    (registration : Nat) (p : Path) :
    Registered (t.addEventRegistration registration p).1.syncPointTree := by
  obtain ⟨v, he, -, hcases⟩ := t.addEventRegistration_cases registration p
  intro q v' hv'
  rw [he, valueAtPath_setValue] at hv'
  split at hv'
  · cases hv'
    rcases hcases with ⟨u, -, rfl⟩ | ⟨-, rfl⟩
    · exact List.append_ne_nil_of_right_ne_nil _ (List.cons_ne_nil _ _)
    · exact List.cons_ne_nil _ _
  · exact hr q v' hv'

theorem allTold_removeEventRegistration {t : SyncTree} {raised : List DataEvent}
    (ht : AllTold raised t.syncPointTree) (registration : Option Nat) (p : Path)
    (cancelled : Bool) :
    AllTold raised (t.removeEventRegistration registration p cancelled).1.syncPointTree := by
  intro q v' hv' g hg
  obtain ⟨v, hv, -, hcache, hsub, -⟩ := view_removeEventRegistration hv'
  rw [hcache]
  exact ht q v hv g (hsub g hg)

theorem registered_removeEventRegistration {t : SyncTree} (hr : Registered t.syncPointTree)
    (registration : Option Nat) (p : Path) (cancelled : Bool) :
    Registered (t.removeEventRegistration registration p cancelled).1.syncPointTree := by
  intro q v' hv'
  obtain ⟨v, hv, -, -, -, hne⟩ := view_removeEventRegistration hv'
  exact hne (hr q v hv)

end SyncTree

end Firebase
