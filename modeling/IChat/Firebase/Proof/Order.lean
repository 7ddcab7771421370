import IChat.Firebase.Proof.Repo

/-!
# The order in which listeners are first told

The listeners of a location get their first value in the order in which they were registered
(`Repo.told_in_order`), as long as none of them is removed before it is told. Every operation tells
all of them in that order, and a listener that is told at once finds all earlier ones told
(`InOrder`).
-/

open ImmutableTree

namespace Firebase

/-! ## First values -/

theorem eraseDups_of_nodup {l : List Nat} (h : l.Nodup) : l.eraseDups = l := by
  induction l with
  | nil => rfl
  | cons a l ih =>
    obtain ⟨ha, hl⟩ := List.nodup_cons.1 h
    have hfilter : l.filter (fun b => !b == a) = l := by
      apply List.filter_eq_self.2
      intro b hb
      simpa using fun hba : b = a => ha (hba ▸ hb)
    rw [List.eraseDups_cons, hfilter, ih hl]

/-- What is new in a list without duplicates comes last. -/
theorem eraseDups_append_of_nodup {l : List Nat} (h : l.Nodup) (ts : List Nat) :
    (ts ++ l).eraseDups = ts.eraseDups ++ l.filter fun a => !ts.eraseDups.contains a := by
  have hsame : l.removeAll ts = l.filter fun a => !ts.eraseDups.contains a := by
    refine List.filter_congr fun a _ => ?_
    rw [Bool.eq_iff_iff]
    simp
  rw [List.eraseDups_append, hsame, eraseDups_of_nodup (h.filter _)]

/-- Later values are first ones for those that had none. -/
theorem eraseDups_mono {ts us : List Nat} (h : ts <+: us) : ts.eraseDups <+: us.eraseDups := by
  obtain ⟨vs, rfl⟩ := h
  rw [List.eraseDups_append]
  exact List.prefix_append _ _

/-- The listeners of a location that were told, each where it was told first. -/
def toldAt (p : Path) (raised : List DataEvent) : List Nat :=
  ((eventsAt p raised).map (·.eventRegistration)).eraseDups

/-- The listeners that are registered at a location. -/
def listenersAt (p : Path) (tree : ImmutableTree String View) : List Nat :=
  (tree.valueAtPath p).elim [] (·.eventRegistrations)

/-- Those whom events tell for the first time come last. -/
theorem toldAt_append {p : Path} {events : List DataEvent} {l : List Nat}
    (hl : (eventsAt p events).map (·.eventRegistration) = l) (h : l.Nodup)
    (raised : List DataEvent) :
    toldAt p (raised ++ events) =
      toldAt p raised ++ l.filter fun g => !(toldAt p raised).contains g := by
  rw [toldAt, eventsAt_append, List.map_append, hl, eraseDups_append_of_nodup h]
  rfl

theorem toldAt_append_nil {p : Path} {events : List DataEvent}
    (hl : (eventsAt p events).map (·.eventRegistration) = []) (raised : List DataEvent) :
    toldAt p (raised ++ events) = toldAt p raised :=
  (toldAt_append hl .nil raised).trans (List.append_nil _)

theorem mem_toldAt_of_lastTold {raised : List DataEvent} {p : Path} {h : Nat} {n : FNode}
    (ht : lastTold raised p h = some n) : h ∈ toldAt p raised := by
  obtain ⟨e, he, -⟩ := Option.map_eq_some_iff.1 ht
  obtain ⟨hmem, heq⟩ := List.mem_filter.1 (List.mem_of_getLast? he)
  exact List.mem_eraseDups.2 (List.mem_map.2 ⟨e, hmem, by simpa using heq⟩)

theorem map_generateEvents (v : View) (value : Option FNode) (registrations : List Nat) :
    (v.generateEvents value registrations).map (·.eventRegistration) =
      if value.isSome then registrations else [] := by
  cases value with
  | none => rfl
  | some n =>
    show (registrations.map fun h => DataEvent.mk v.path h n).map (·.eventRegistration) = _
    rw [List.map_map]
    exact List.map_id' _

/-! ## The invariant -/

/-- Those told first were registered first, and the others still wait, in order. -/
structure InOrder (p : Path) (registered : List Nat) (raised : List DataEvent)
    (tree : ImmutableTree String View) : Prop where
  order : toldAt p raised ++ (listenersAt p tree).filter (fun h => !(toldAt p raised).contains h) =
    registered
  nodup : (listenersAt p tree).Nodup

namespace InOrder

variable {p : Path} {registered : List Nat} {raised events : List DataEvent}
  {tree tree' : ImmutableTree String View}

theorem told_isPrefix (h : InOrder p registered raised tree) : toldAt p raised <+: registered :=
  ⟨_, h.order⟩

theorem mem_registered (h : InOrder p registered raised tree) {g : Nat}
    (hg : g ∈ listenersAt p tree) : g ∈ registered := by
  rw [← h.order, List.mem_append, List.mem_filter]
  by_cases ht : g ∈ toldAt p raised
  · exact .inl ht
  · exact .inr ⟨hg, by simpa using ht⟩

theorem congr (h : InOrder p registered raised tree)
    (htree : listenersAt p tree' = listenersAt p tree) : InOrder p registered raised tree' := by
  constructor
  · rw [htree]; exact h.order
  · rw [htree]; exact h.nodup

/-- The listeners of a location are told all at once, or none is. -/
theorem tells (h : InOrder p registered raised tree)
    (htree : listenersAt p tree' = listenersAt p tree)
    (hevents : (eventsAt p events).map (·.eventRegistration) = [] ∨
      (eventsAt p events).map (·.eventRegistration) = listenersAt p tree) :
    InOrder p registered (raised ++ events) tree' := by
  refine ⟨?_, by rw [htree]; exact h.nodup⟩
  rw [htree]
  rcases hevents with hnone | hall
  · rw [toldAt_append_nil hnone]
    exact h.order
  · have hnew : (listenersAt p tree).filter (fun g => !registered.contains g) = [] := by
      apply List.filter_eq_nil_iff.2
      intro g hg
      simpa using h.mem_registered hg
    rw [toldAt_append hall h.nodup, h.order, hnew, List.append_nil]

/-- A new listener waits behind the others, or all of them were told. -/
theorem add (h : InOrder p registered raised tree) {g : Nat} (hg : g ∉ registered)
    (htree : listenersAt p tree' = listenersAt p tree ++ [g])
    (hevents : (eventsAt p events).map (·.eventRegistration) = [] ∨
      (eventsAt p events).map (·.eventRegistration) = [g] ∧
        ∀ g' ∈ listenersAt p tree, g' ∈ toldAt p raised) :
    InOrder p (registered ++ [g]) (raised ++ events) tree' := by
  have hfresh : [g].filter (fun a => !(toldAt p raised).contains a) = [g] := by
    simpa using fun ht => hg (h.told_isPrefix.subset ht)
  have hnodup : (listenersAt p tree ++ [g]).Nodup := by
    refine List.nodup_append.2 ⟨h.nodup, List.nodup_singleton g, fun a ha b hb hab => ?_⟩
    rw [List.mem_singleton.1 hb] at hab
    exact hg (h.mem_registered (hab ▸ ha))
  refine ⟨?_, by rw [htree]; exact hnodup⟩
  rw [htree]
  rcases hevents with hnone | ⟨hone, hall⟩
  · rw [toldAt_append_nil hnone, List.filter_append, hfresh, ← List.append_assoc, h.order]
  · have hnone : (listenersAt p tree).filter (fun a => !(toldAt p raised).contains a) = [] := by
      apply List.filter_eq_nil_iff.2
      intro a ha
      simpa using hall a ha
    have htold : toldAt p raised = registered := by
      have horder := h.order
      rwa [hnone, List.append_nil] at horder
    have hnew : (listenersAt p tree ++ [g]).filter
        (fun a => !(registered ++ [g]).contains a) = [] := by
      apply List.filter_eq_nil_iff.2
      intro a ha
      have hmem : a ∈ registered ++ [g] := by
        rcases List.mem_append.1 ha with ha | ha
        · exact List.mem_append_left _ (h.mem_registered ha)
        · exact List.mem_append_right _ ha
      rw [List.contains_iff_mem.2 hmem]
      exact Bool.false_ne_true
    rw [toldAt_append hone (List.nodup_singleton g), hfresh, htold, hnew, List.append_nil]

/-- A listener that was told is removed. -/
theorem remove (h : InOrder p registered raised tree) {g : Nat} (hg : g ∈ toldAt p raised)
    (htree : listenersAt p tree' = (listenersAt p tree).filter (· != g)) :
    InOrder p registered raised tree' := by
  refine ⟨?_, by rw [htree]; exact h.nodup.filter _⟩
  rw [htree, List.filter_filter]
  refine Eq.trans (congrArg _ (List.filter_congr fun a _ => ?_)) h.order
  by_cases ha : a ∈ toldAt p raised
  · simp [ha]
  · have hne : a ≠ g := fun he => ha (he ▸ hg)
    simp [ha, hne]

end InOrder

/-! ## Steps -/

/-- The listeners that an event registers at a location. -/
def RepoEvent.registers (p : Path) : RepoEvent → List Nat
  | .addEventRegistration registration path => if path = p then [registration] else []
  | _ => []

/-- The listeners that events have registered at a location, in order. -/
def registeredAt (p : Path) (es : List RepoEvent) : List Nat := es.flatMap (·.registers p)

namespace Repo

/-- No listener of the location is removed before it is told. -/
def Patient (p : Path) (r : Repo) : RepoEvent → Prop
  | .removeEventRegistration registration path =>
    path = p → ∃ h ∈ toldAt p r.raised, registration = some h
  | .listenResponse path success => path = p → success = true
  | _ => True

variable {r r' : Repo} {p : Path} {registered : List Nat}

theorem inOrder_idle (h : InOrder p registered r.raised r.serverSyncTree.syncPointTree)
    (hidle : Idle r r') : InOrder p registered r'.raised r'.serverSyncTree.syncPointTree := by
  rw [hidle.1, hidle.2]
  exact h

theorem inOrder_operates (hinv : r.Inv)
    (h : InOrder p registered r.raised r.serverSyncTree.syncPointTree) (ho : Operates r r') :
    InOrder p registered r'.raised r'.serverSyncTree.syncPointTree := by
  obtain ⟨t, op, -, -, htree, hraised⟩ := ho
  have hviews : ViewsWF [] (SyncTree.mk r.serverSyncTree.syncPointTree t).syncPointTree :=
    hinv.views
  have hp := SyncTree.passed_applyOperationToSyncPoints hviews op p
  rw [htree, hraised]
  rcases Option.eq_none_or_eq_some (r.serverSyncTree.syncPointTree.valueAtPath p) with hv | ⟨v, hv⟩
  · rw [hv] at hp
    refine h.tells ?_ (.inl (by rw [hp.2]; rfl))
    rw [listenersAt, listenersAt, hv, hp.1]
  rcases Option.eq_none_or_eq_some (SyncTree.concerning op.path op p) with hc | ⟨op', hc⟩
  · rw [hv, hc] at hp
    refine h.tells ?_ (.inl (by rw [hp.2]; rfl))
    rw [listenersAt, listenersAt, hv, hp.1]
  · rw [hv, hc] at hp
    obtain ⟨server, -, hv', hevents⟩ := hp
    refine h.tells ?_ ?_
    · rw [listenersAt, listenersAt, hv, hv']
      rfl
    · rw [hevents, View.applyOperation, map_generateEvents, listenersAt, hv]
      split
      · exact .inr rfl
      · exact .inl rfl

theorem inOrder_addEventRegistration (hinv : r.Inv)
    (h : InOrder p registered r.raised r.serverSyncTree.syncPointTree) {g : Nat} {q : Path}
    (hg : q = p → g ∉ registered)
    (hs : Stepped r r' (.addEventRegistration g q)) :
    InOrder p (registered ++ RepoEvent.registers p (.addEventRegistration g q)) r'.raised
      r'.serverSyncTree.syncPointTree := by
  obtain ⟨htree, hraised⟩ := hs
  obtain ⟨v, he, hevents, hcases⟩ := r.serverSyncTree.addEventRegistration_cases g q
  have hat := SyncTree.path_addEventRegistration hinv.views g q
  rw [htree, hraised, he]
  by_cases hq : q = p
  · subst hq
    rw [RepoEvent.registers, if_pos rfl]
    refine h.add (hg rfl) ?_ ?_
    · rw [listenersAt, listenersAt, valueAtPath_setValue, if_pos rfl]
      rcases hcases with ⟨u, hu, rfl⟩ | ⟨hnone, rfl⟩
      · rw [hu]; rfl
      · rw [hnone]; rfl
    · rw [eventsAt_eq_self hat, hevents, View.initialEvents, map_generateEvents]
      by_cases hfull : v.viewCache.cachedEventSnap.isFullyInitialized = true
      · refine .inr ⟨by rw [ViewCache.completeEventSnap, if_pos hfull]; rfl, fun g' hg' => ?_⟩
        rcases hcases with ⟨u, hu, rfl⟩ | ⟨hnone, rfl⟩
        · rw [listenersAt, hu] at hg'
          exact mem_toldAt_of_lastTold (hinv.told q u hu g' hg' hfull)
        · rw [listenersAt, hnone] at hg'
          cases hg'
      · exact .inl (by rw [ViewCache.completeEventSnap, if_neg hfull]; rfl)
  · rw [RepoEvent.registers, if_neg hq, List.append_nil]
    refine h.tells ?_ (.inl ?_)
    · rw [listenersAt, listenersAt, valueAtPath_setValue, if_neg fun heq => hq heq.symm]
    · rw [eventsAt_eq_nil fun e hmem heq => hq (by rw [← hat e hmem, heq])]
      rfl

/-- A removal at another location. -/
theorem listenersAt_removeEventRegistration_ne {registration : Option Nat} {q : Path}
    {cancelled : Bool} (hq : q ≠ p) :
    listenersAt p (r.serverSyncTree.removeEventRegistration registration q
      cancelled).1.syncPointTree = listenersAt p r.serverSyncTree.syncPointTree := by
  obtain ⟨tree, he, htree⟩ :=
    r.serverSyncTree.removeEventRegistration_cases registration q cancelled
  rw [he]
  rcases htree with rfl | rfl | ⟨v, -, -, rfl⟩
  · rfl
  · rw [listenersAt, valueAtPath_removeValueAtPath, if_neg fun heq => hq heq.symm]
    rfl
  · rw [listenersAt, valueAtPath_setValue, if_neg fun heq => hq heq.symm]
    rfl

/-- The removal of one listener. -/
theorem listenersAt_removeEventRegistration (r : Repo) (g : Nat) (p : Path) (cancelled : Bool) :
    listenersAt p (r.serverSyncTree.removeEventRegistration (some g) p cancelled).1.syncPointTree =
      (listenersAt p r.serverSyncTree.syncPointTree).filter (· != g) := by
  unfold SyncTree.removeEventRegistration
  cases hv : r.serverSyncTree.syncPointTree.valueAtPath p with
  | none => rw [listenersAt, hv]; rfl
  | some v =>
    have hat : listenersAt p r.serverSyncTree.syncPointTree = v.eventRegistrations := by
      rw [listenersAt, hv]; rfl
    rw [hat]
    by_cases hnone : (v.removeEventRegistration (some g)).eventRegistrations.isEmpty = true
    · have hgone : v.eventRegistrations.filter (· != g) = [] := List.isEmpty_iff.1 hnone
      simp only [if_pos hnone, SyncTree.removeView]
      rw [hgone]
      split <;>
        · show listenersAt p (r.serverSyncTree.syncPointTree.removeValueAtPath p) = []
          rw [listenersAt, valueAtPath_removeValueAtPath, if_pos rfl]
          rfl
    · simp only [if_neg hnone]
      rw [listenersAt, valueAtPath_setValue, if_pos rfl]
      rfl

/-- **Step lemma.** -/
theorem step_inOrder (hinv : r.Inv) {e : RepoEvent} (he : e.Nodes) (hp : r.Patient p e)
    (hs : r.step e = some r')
    (h : InOrder p registered r.raised r.serverSyncTree.syncPointTree)
    (hnodup : (registered ++ e.registers p).Nodup) :
    InOrder p (registered ++ e.registers p) r'.raised r'.serverSyncTree.syncPointTree := by
  have hstepped := stepped hinv he hs
  cases e with
  | addEventRegistration g q =>
    refine inOrder_addEventRegistration hinv h (fun hq hmem => ?_) hstepped
    rw [RepoEvent.registers, if_pos hq] at hnodup
    exact (List.nodup_append.1 hnodup).2.2 g hmem g (List.mem_singleton_self g) rfl
  | removeEventRegistration registration q =>
    obtain ⟨htree, hraised⟩ := hstepped
    show InOrder p (registered ++ []) _ _
    rw [List.append_nil, hraised, htree]
    by_cases hq : q = p
    · obtain ⟨g, hg, rfl⟩ := hp hq
      subst hq
      exact h.remove hg (listenersAt_removeEventRegistration r g q false)
    · exact h.congr (listenersAt_removeEventRegistration_ne hq)
  | listenResponse q success =>
    show InOrder p (registered ++ []) _ _
    rw [List.append_nil]
    cases success with
    | true => exact hstepped.elim (inOrder_idle h) (inOrder_operates hinv h)
    | false =>
      have hq : q ≠ p := fun hq => Bool.false_ne_true (hp hq)
      refine hstepped.elim (inOrder_idle h) fun hcancel => ?_
      rw [hcancel.1, hcancel.2]
      exact h.congr (listenersAt_removeEventRegistration_ne hq)
  | set | update | putResponse | onDataUpdate | onDataMerge =>
    show InOrder p (registered ++ []) _ _
    rw [List.append_nil]
    exact hstepped.elim (inOrder_idle h) (inOrder_operates hinv h)

/-! ## Runs -/

theorem registeredAt_append (p : Path) (es es' : List RepoEvent) :
    registeredAt p (es ++ es') = registeredAt p es ++ registeredAt p es' :=
  List.flatMap_append

theorem inOrder_of_run {es : List RepoEvent} (hes : ∀ e ∈ es, e.Nodes) {r : Repo}
    (hrun : Machine.run step init es = some r) (hp : Machine.Meets step (Patient p) init es)
    (hnodup : (registeredAt p es).Nodup) :
    InOrder p (registeredAt p es) r.raised r.serverSyncTree.syncPointTree := by
  refine Machine.run_inv (I := fun es r => (∀ e ∈ es, e.Nodes) → (registeredAt p es).Nodup →
    InOrder p (registeredAt p es) r.raised r.serverSyncTree.syncPointTree) hrun hp ?_ ?_ hes hnodup
  · intro _ _
    have hnone : listenersAt p init.serverSyncTree.syncPointTree = [] := by
      rw [listenersAt, valueAtPath_init]
      rfl
    exact ⟨by rw [hnone]; rfl, by rw [hnone]; exact .nil⟩
  · intro es e r₁ r₂ hrun₁ h hpatient hs hes hnodup
    have hsingle : registeredAt p [e] = e.registers p := List.append_nil _
    rw [registeredAt_append, hsingle] at hnodup ⊢
    have hpre : ∀ e ∈ es, e.Nodes := fun x hx => hes x (List.mem_append_left _ hx)
    exact step_inOrder (run_inv hpre hrun₁) (hes e (List.mem_append_right _ (.head _))) hpatient hs
      (h hpre (List.nodup_append.1 hnodup).1) hnodup

/-- **Listeners are first told in the order of their registration**, when none is removed before it
is told. -/
theorem told_in_order {es : List RepoEvent} (hes : ∀ e ∈ es, e.Nodes) {r : Repo}
    (hrun : Machine.run step init es = some r) (hp : Machine.Meets step (Patient p) init es)
    (hnodup : (registeredAt p es).Nodup) : toldAt p r.raised <+: registeredAt p es :=
  (inOrder_of_run hes hrun hp hnodup).told_isPrefix

/-- Two listeners of a location, which the server then answers. -/
def twoListeners : List RepoEvent :=
  [.addEventRegistration 0 ["users"], .addEventRegistration 1 ["users"],
    .onDataUpdate ["users"] (nodeFrom (.dict [("bob", .str "Bob")]))]

theorem told_in_order_two : ∃ r, Machine.run step init twoListeners = some r ∧
    toldAt ["users"] r.raised = [0, 1] ∧
    toldAt ["users"] r.raised <+: registeredAt ["users"] twoListeners := by
  have hes : ∀ e ∈ twoListeners, e.Nodes :=
    List.forall_mem_cons.2 ⟨trivial, List.forall_mem_cons.2 ⟨trivial,
      List.forall_mem_cons.2 ⟨wf_nodeFrom _, fun _ h => by cases h⟩⟩⟩
  have hpatient : Machine.Meets step (Patient ["users"]) init twoListeners :=
    Machine.meets_cons trivial rfl (Machine.meets_cons trivial rfl
      (Machine.meets_cons trivial rfl trivial))
  exact ⟨_, rfl, by decide +kernel, told_in_order hes rfl hpatient (by decide)⟩

end Repo

end Firebase
