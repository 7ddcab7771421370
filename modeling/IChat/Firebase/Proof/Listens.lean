import IChat.Data.Topmost
import IChat.Firebase.Proof.Registrations
import IChat.Firebase.Repo

/-!
# What the server is asked for

`Listening listens tree`: the queries listened to are the topmost of the locations observed, each
once. Registrations and their removal keep this, and never ask for a query that is listened to
already, though the sync tree starts and stops queries without looking at the others.
-/

open SortedMap ImmutableTree

namespace Firebase

open FPath

/-- A location has a view. -/
def Observed (tree : ImmutableTree String View) (p : Path) : Prop :=
  (tree.valueAtPath p).isSome = true

/-- The queries listened to are the topmost of the locations observed. -/
structure Listening (listens : List Path) (tree : ImmutableTree String View) : Prop where
  nodup : listens.Nodup
  topmost : ∀ p, p ∈ listens ↔ Topmost (Observed tree) p

/-- Only where there are views matters. -/
theorem Listening.congr {listens : List Path} {tree tree' : ImmutableTree String View}
    (h : Listening listens tree) (he : ∀ p, Observed tree' p ↔ Observed tree p) :
    Listening listens tree' :=
  ⟨h.nodup, fun p => (h.topmost p).trans (Topmost.congr he).symm⟩

/-! ## Starting and stopping -/

theorem perform_start {ps listens : List Path} (hps : ps.Nodup) (h : ∀ p ∈ ps, p ∉ listens)
    (actions : List ListenAction) :
    (ps.map ListenAction.startListening ++ actions).foldlM Repo.perform listens =
      actions.foldlM Repo.perform (ps.reverse ++ listens) := by
  induction ps generalizing listens with
  | nil => rfl
  | cons p ps ih =>
    obtain ⟨hp, hps⟩ := List.nodup_cons.1 hps
    have hstart : Repo.perform listens (.startListening p) = some (p :: listens) :=
      if_neg (h p (.head _))
    rw [List.map_cons, List.cons_append, List.foldlM_cons, hstart]
    show (ps.map ListenAction.startListening ++ actions).foldlM Repo.perform (p :: listens) = _
    rw [ih hps, List.reverse_cons, List.append_assoc]
    · rfl
    · intro q hq hmem
      rcases List.mem_cons.1 hmem with rfl | hmem
      · exact hp hq
      · exact h q (.tail _ hq) hmem

theorem perform_stop (ps listens : List Path) :
    (ps.map ListenAction.stopListening).foldlM Repo.perform listens = some (listens.diff ps) := by
  induction ps generalizing listens with
  | nil => rfl
  | cons p ps ih =>
    rw [List.map_cons, List.foldlM_cons]
    show (ps.map ListenAction.stopListening).foldlM Repo.perform (listens.erase p) = _
    rw [ih, List.diff_cons]

namespace SyncTree

theorem hasViewOnPath_iff (t : SyncTree) (p : Path) :
    t.hasViewOnPath p = true ↔ ∃ q, q <+: p ∧ Observed t.syncPointTree q := by
  unfold hasViewOnPath
  constructor
  · intro h
    obtain ⟨u, hu⟩ := Option.isSome_iff_exists.1 h
    obtain ⟨q, v, hq, hv, -⟩ := findOnPath_eq_some hu
    exact ⟨q, hq, by rw [Observed, hv]; rfl⟩
  · rintro ⟨q, hq, hv⟩
    obtain ⟨v, hv⟩ := Option.isSome_iff_exists.1 hv
    cases hf : findOnPath (fun _ (_ : View) => some ()) [] t.syncPointTree p with
    | some u => rfl
    | none => cases findOnPath_eq_none hf hq hv

/-- The subtree at a path without the view there. -/
structure Below (tree : ImmutableTree String View) (p : Path) (sub : ImmutableTree String View) :
    Prop where
  ordered : Ordered sub
  root : sub.value = none
  values : ∀ q, q ≠ [] → sub.valueAtPath q = tree.valueAtPath (p ++ q)

/-- The views listed know their paths. -/
theorem path_topmost {tree sub : ImmutableTree String View} (h : ViewsWF [] tree) {p : Path}
    (hsub : Below tree p sub) :
    ∀ x ∈ sub.topmost [], x.1 ≠ [] ∧ x.2.path = p ++ x.1 ∧ sub.valueAtPath x.1 = some x.2 ∧
      ∀ s, s <+: x.1 → s ≠ x.1 → sub.valueAtPath s = none := by
  intro x hx
  obtain ⟨q, hq, hv, hnone⟩ := (mem_topmost hsub.ordered).1 hx
  rw [List.nil_append] at hq
  have hne : q ≠ [] := by
    rintro rfl
    rw [valueAtPath_nil, hsub.root] at hv
    cases hv
  have hpath := (h.views (p ++ q) x.2 (by rw [← hsub.values q hne, hv])).1
  subst hq
  exact ⟨hne, hpath, hv, hnone⟩

theorem mem_topmost_path {tree sub : ImmutableTree String View} (h : ViewsWF [] tree) {p : Path}
    (hsub : Below tree p sub) (habove : ∀ r, r <+: p → r ≠ p → ¬ Observed tree r) (q : Path) :
    q ∈ (sub.topmost []).map (·.2.path) ↔
      p <+: q ∧ Topmost (fun q => q ≠ p ∧ Observed tree q) q := by
  constructor
  · intro hq
    obtain ⟨x, hx, rfl⟩ := List.mem_map.1 hq
    obtain ⟨hne, hpath, hv, hnone⟩ := path_topmost h hsub x hx
    rw [hpath]
    refine ⟨List.prefix_append p x.1, (Topmost.append_iff habove).2 ⟨hne, ?_, fun s hs hs' hD => ?_⟩⟩
    · rw [Observed, ← hsub.values x.1 hne, hv]
      rfl
    · by_contra hsx
      have hs0 := hnone s hs hsx
      rw [Observed, ← hsub.values s hs', hs0] at hD
      cases hD
  · rintro ⟨⟨r, rfl⟩, htop⟩
    obtain ⟨hne, hD, hmin⟩ := (Topmost.append_iff habove).1 htop
    obtain ⟨v, hv⟩ := Option.isSome_iff_exists.1 hD
    have hv' := hv
    rw [← hsub.values r hne] at hv'
    refine List.mem_map.2 ⟨(r, v), (mem_topmost hsub.ordered).2 ⟨r, rfl, hv', fun s hs hsr => ?_⟩,
      (h.views _ v hv).1⟩
    by_cases hs0 : s = []
    · rw [hs0, valueAtPath_nil, hsub.root]
    · rw [hsub.values s hs0]
      cases hs' : tree.valueAtPath (p ++ s) with
      | none => rfl
      | some u => exact absurd (hmin s hs hs0 (by rw [Observed, hs']; rfl)) hsr

theorem nodup_topmost_path {tree sub : ImmutableTree String View} (h : ViewsWF [] tree) {p : Path}
    (hsub : Below tree p sub) : ((sub.topmost []).map (·.2.path)).Nodup := by
  have hmap : (sub.topmost []).map (·.2.path) = ((sub.topmost []).map (·.1)).map (p ++ ·) := by
    rw [List.map_map]
    exact List.map_congr_left fun x hx => (path_topmost h hsub x hx).2.1
  rw [hmap]
  exact (nodup_topmost hsub.ordered []).map fun _ _ he => List.append_cancel_left he

/-! ## Registrations -/

theorem observed_setValue {tree : ImmutableTree String View} (v : View) (p q : Path) :
    Observed (setValue v tree p) q ↔ q = p ∨ Observed tree q := by
  unfold Observed
  rw [valueAtPath_setValue]
  split <;> simp_all

theorem observed_removeValueAtPath {tree : ImmutableTree String View} (p q : Path) :
    Observed (tree.removeValueAtPath p) q ↔ q ≠ p ∧ Observed tree q := by
  unfold Observed
  rw [valueAtPath_removeValueAtPath]
  split <;> simp_all

/-- The queries stopped for a new view: what was topmost below it. -/
theorem mem_queriesToStop {t : SyncTree} (h : ViewsWF [] t.syncPointTree) {p : Path}
    (habove : ∀ r, r <+: p → ¬ Observed t.syncPointTree r) (q : Path) :
    q ∈ t.queriesToStop p ↔ p <+: q ∧ Topmost (Observed t.syncPointTree) q := by
  have hroot : t.syncPointTree.valueAtPath p = none := by
    simpa [Observed] using habove p List.prefix_rfl
  have hsub : Below t.syncPointTree p (.mk none (t.syncPointTree.subtreeAtPath p).children) := by
    have ho := h.ordered.subtreeAtPath p
    have hval := valueAtPath_subtreeAtPath t.syncPointTree p
    generalize t.syncPointTree.subtreeAtPath p = sub at ho hval
    obtain ⟨v, cs⟩ := sub
    refine ⟨?_, rfl, fun q hq => ?_⟩
    · cases ho with
      | mk hs hc => exact .mk hs hc
    · cases q with
      | nil => exact absurd rfl hq
      | cons k q => rw [← hval (k :: q)]; rfl
  have hmem := mem_topmost_path h hsub (fun r hr _ => habove r hr) q
  have hcongr : ∀ q, (q ≠ p ∧ Observed t.syncPointTree q) ↔ Observed t.syncPointTree q := by
    intro q
    refine and_iff_right_of_imp fun hq => ?_
    rintro rfl
    exact habove q List.prefix_rfl hq
  rw [Topmost.congr hcongr] at hmem
  exact hmem

/-- **A registration** starts what has become topmost and stops what is no longer. -/
theorem listening_addEventRegistration {t : SyncTree} (h : ViewsWF [] t.syncPointTree)
    {listens : List Path} (hl : Listening listens t.syncPointTree) (registration : Nat) (p : Path) :
    ∃ listens', (t.addEventRegistration registration p).2.2.foldlM Repo.perform listens =
        some listens' ∧
      Listening listens' (t.addEventRegistration registration p).1.syncPointTree := by
  cases hv : t.syncPointTree.valueAtPath p with
  | some v =>
    refine ⟨listens, by simp [addEventRegistration, hv], ?_⟩
    simp only [addEventRegistration, hv]
    refine hl.congr fun q => (observed_setValue _ p q).trans (or_iff_right_of_imp ?_)
    rintro rfl
    rw [Observed, hv]
    rfl
  | none =>
    simp only [addEventRegistration, hv]
    by_cases hfound : t.hasViewOnPath p = true
    · rw [if_pos hfound]
      refine ⟨listens, rfl, hl.nodup, fun q => ?_⟩
      rw [hl.topmost, Topmost.congr (observed_setValue _ p),
        Topmost.insert_covered ((hasViewOnPath_iff t p).1 hfound)]
    · rw [if_neg hfound]
      rw [hasViewOnPath_iff] at hfound
      have habove : ∀ r, r <+: p → ¬ Observed t.syncPointTree r := fun r hr hD =>
        hfound ⟨r, hr, hD⟩
      have hp : p ∉ listens := fun hp => habove p List.prefix_rfl ((hl.topmost p).1 hp).1
      have hstart := perform_start (List.nodup_singleton p)
        (fun q hq hmem => hp (List.mem_singleton.1 hq ▸ hmem))
        ((t.queriesToStop p).map .stopListening)
      refine ⟨_, hstart.trans (perform_stop _ _), ?_, fun q => ?_⟩
      · exact (List.nodup_cons.2 ⟨hp, hl.nodup⟩).diff
      · rw [Topmost.congr (observed_setValue _ p), Topmost.insert_uncovered habove,
          List.reverse_singleton, List.singleton_append,
          (List.nodup_cons.2 ⟨hp, hl.nodup⟩).mem_sdiff_iff, mem_queriesToStop h habove,
          List.mem_cons, hl.topmost]
        constructor
        · rintro ⟨rfl | htop, hno⟩
          · exact .inl rfl
          · exact .inr ⟨htop, fun hpq => hno ⟨hpq, htop⟩⟩
        · rintro (rfl | ⟨htop, hpq⟩)
          · exact ⟨.inl rfl, fun ⟨_, htop⟩ => habove q List.prefix_rfl htop.1⟩
          · exact ⟨.inr htop, fun hno => hpq hno.1⟩

/-- What the removal of a view starts. -/
theorem mem_collectDistinctViews {t : SyncTree} (h : ViewsWF [] t.syncPointTree) {p : Path}
    (habove : ∀ r, r <+: p → r ≠ p → ¬ Observed t.syncPointTree r) :
    let starts := (collectDistinctViewsForSubTree
      ((t.syncPointTree.removeValueAtPath p).subtreeAtPath p)).map (·.path)
    starts.Nodup ∧ ∀ q, q ∈ starts ↔
      p <+: q ∧ Topmost (fun q => q ≠ p ∧ Observed t.syncPointTree q) q := by
  have hsub : Below t.syncPointTree p
      ((t.syncPointTree.removeValueAtPath p).subtreeAtPath p) := by
    have hval := fun q => (valueAtPath_subtreeAtPath (t.syncPointTree.removeValueAtPath p) p q).trans
      (valueAtPath_removeValueAtPath t.syncPointTree p (p ++ q))
    refine ⟨(h.ordered.removeValueAtPath p).subtreeAtPath p, ?_, fun q hq => ?_⟩
    · rw [← valueAtPath_nil, hval [], if_pos (List.append_nil p)]
    · rw [hval q, if_neg (by simpa using hq)]
  have hmap : (collectDistinctViewsForSubTree
      ((t.syncPointTree.removeValueAtPath p).subtreeAtPath p)).map (·.path) =
        (((t.syncPointTree.removeValueAtPath p).subtreeAtPath p).topmost []).map (·.2.path) :=
    List.map_map
  simp only [hmap]
  exact ⟨nodup_topmost_path h hsub, mem_topmost_path h hsub habove⟩

/-- The queries after a view is gone; `gone` are those listened to without that of the view. -/
theorem listening_starts {t : SyncTree} (h : ViewsWF [] t.syncPointTree) {p : Path}
    (hobs : Observed t.syncPointTree p)
    (habove : ∀ r, r <+: p → r ≠ p → ¬ Observed t.syncPointTree r) {gone : List Path}
    (hnodup : gone.Nodup)
    (hgone : ∀ q, q ∈ gone ↔ Topmost (Observed t.syncPointTree) q ∧ q ≠ p) :
    let starts := (collectDistinctViewsForSubTree
      ((t.syncPointTree.removeValueAtPath p).subtreeAtPath p)).map (·.path)
    starts.Nodup ∧ (∀ q ∈ starts, q ∉ gone ∧ q ≠ p) ∧
      Listening (starts.reverse ++ gone) (t.syncPointTree.removeValueAtPath p) := by
  obtain ⟨hstarts, hmem⟩ := mem_collectDistinctViews h habove
  generalize (collectDistinctViewsForSubTree
    ((t.syncPointTree.removeValueAtPath p).subtreeAtPath p)).map (·.path) = starts at hstarts hmem
  have hnot : ∀ q ∈ starts, q ∉ gone ∧ q ≠ p := by
    intro q hq
    obtain ⟨hpq, ⟨hne, -⟩, -⟩ := (hmem q).1 hq
    refine ⟨fun hg => ?_, hne⟩
    -- the view was above it
    exact hne (((hgone q).1 hg).1.2 p hpq hobs).symm
  refine ⟨hstarts, hnot, ?_, fun q => ?_⟩
  · refine List.nodup_append.2 ⟨List.nodup_reverse.2 hstarts, hnodup, ?_⟩
    intro q hq r hr he
    subst he
    exact (hnot q (List.mem_reverse.1 hq)).1 hr
  · rw [Topmost.congr (observed_removeValueAtPath p), Topmost.remove, List.mem_append,
      List.mem_reverse, hmem, hgone, or_comm]

theorem not_observed_above {t : SyncTree} {p : Path}
    (h : ¬ SyncTree.hasViewOnPath
      { t with syncPointTree := t.syncPointTree.removeValueAtPath p } p = true) :
    ∀ r, r <+: p → r ≠ p → ¬ Observed t.syncPointTree r := fun r hr hne hD =>
  h ((hasViewOnPath_iff _ p).2 ⟨r, hr, (observed_removeValueAtPath p r).2 ⟨hne, hD⟩⟩)

/-- The queries listened to when a view goes that its listener has not lost to the server. -/
theorem listening_removeView {t : SyncTree} (h : ViewsWF [] t.syncPointTree) {listens : List Path}
    (hl : Listening listens t.syncPointTree) {p : Path} (hobs : Observed t.syncPointTree p) :
    ∃ listens', (t.removeView p false).2.foldlM Repo.perform listens = some listens' ∧
      Listening listens' (t.removeView p false).1.syncPointTree := by
  unfold removeView
  by_cases hcovered : SyncTree.hasViewOnPath
      { t with syncPointTree := t.syncPointTree.removeValueAtPath p } p = true
  · simp only [if_pos hcovered]
    refine ⟨listens, rfl, hl.nodup, fun q => ?_⟩
    obtain ⟨r, hr, hD⟩ := (hasViewOnPath_iff _ p).1 hcovered
    obtain ⟨hne, hD⟩ := (observed_removeValueAtPath p r).1 hD
    rw [hl.topmost, Topmost.congr (observed_removeValueAtPath p),
      Topmost.remove_covered ⟨r, hr, hne, hD⟩]
  · simp only [if_neg hcovered]
    have habove := not_observed_above hcovered
    have hmem : ∀ q, q ∈ listens.erase p ↔ Topmost (Observed t.syncPointTree) q ∧ q ≠ p := by
      intro q
      rw [hl.nodup.mem_erase_iff, hl.topmost, and_comm]
    obtain ⟨hnodup, hnot, hlistening⟩ := listening_starts h hobs habove (hl.nodup.erase p) hmem
    have hfresh : ∀ q ∈ (collectDistinctViewsForSubTree
        ((t.syncPointTree.removeValueAtPath p).subtreeAtPath p)).map (·.path), q ∉ listens :=
      fun q hq hql => (hnot q hq).1 (hl.nodup.mem_erase_iff.2 ⟨(hnot q hq).2, hql⟩)
    have hstart := perform_start hnodup hfresh ([p].map .stopListening)
    rw [List.map_map, perform_stop, List.diff_cons, List.diff_nil, List.erase_append_right _
      fun hp => (hnot p (List.mem_reverse.1 hp)).2 rfl] at hstart
    exact ⟨_, hstart, hlistening⟩

/-- The same when the server has ended the listen, which is then gone already. -/
theorem listening_removeView_cancelled {t : SyncTree} (h : ViewsWF [] t.syncPointTree)
    {listens : List Path} (hl : Listening listens t.syncPointTree) {p : Path} (hp : p ∈ listens) :
    ∃ listens', (t.removeView p true).2.foldlM Repo.perform (listens.erase p) = some listens' ∧
      Listening listens' (t.removeView p true).1.syncPointTree := by
  obtain ⟨hobs, htop⟩ := (hl.topmost p).1 hp
  have habove : ∀ r, r <+: p → r ≠ p → ¬ Observed t.syncPointTree r := fun r hr hne hD =>
    hne (htop r hr hD)
  have hcovered : ¬ SyncTree.hasViewOnPath
      { t with syncPointTree := t.syncPointTree.removeValueAtPath p } p = true := by
    rw [hasViewOnPath_iff]
    rintro ⟨r, hr, hD⟩
    obtain ⟨hne, hD⟩ := (observed_removeValueAtPath p r).1 hD
    exact habove r hr hne hD
  have hmem : ∀ q, q ∈ listens.erase p ↔ Topmost (Observed t.syncPointTree) q ∧ q ≠ p := by
    intro q
    rw [hl.nodup.mem_erase_iff, hl.topmost, and_comm]
  obtain ⟨hnodup, hnot, hlistening⟩ := listening_starts h hobs habove (hl.nodup.erase p) hmem
  unfold removeView
  simp only [if_neg hcovered, if_true]
  have hstart := perform_start hnodup (fun q hq => (hnot q hq).1) []
  rw [List.map_map] at hstart
  exact ⟨_, hstart, hlistening⟩

/-- **The removal of registrations** starts what the view covered, and stops the view. -/
theorem listening_removeEventRegistration {t : SyncTree} (h : ViewsWF [] t.syncPointTree)
    {listens : List Path} (hl : Listening listens t.syncPointTree) (registration : Option Nat)
    (p : Path) :
    ∃ listens', (t.removeEventRegistration registration p false).2.foldlM Repo.perform listens =
        some listens' ∧
      Listening listens' (t.removeEventRegistration registration p false).1.syncPointTree := by
  unfold removeEventRegistration
  cases hv : t.syncPointTree.valueAtPath p with
  | none => exact ⟨listens, rfl, hl⟩
  | some v =>
    have hobs : Observed t.syncPointTree p := by rw [Observed, hv]; rfl
    by_cases hnone : (v.removeEventRegistration registration).eventRegistrations.isEmpty = true
    · simp only [if_pos hnone]
      exact listening_removeView h hl hobs
    · simp only [if_neg hnone]
      refine ⟨listens, rfl, hl.congr fun q => ?_⟩
      rw [observed_setValue, or_iff_right_of_imp]
      rintro rfl
      exact hobs

/-- A listen that the server ends takes all registrations with it. -/
theorem listening_cancelled {t : SyncTree} (h : ViewsWF [] t.syncPointTree) {listens : List Path}
    (hl : Listening listens t.syncPointTree) {p : Path} (hp : p ∈ listens) :
    ∃ listens', (t.removeEventRegistration none p true).2.foldlM Repo.perform (listens.erase p) =
        some listens' ∧
      Listening listens' (t.removeEventRegistration none p true).1.syncPointTree := by
  obtain ⟨v, hv⟩ := Option.isSome_iff_exists.1 ((hl.topmost p).1 hp).1
  simp only [removeEventRegistration, hv]
  exact listening_removeView_cancelled h hl hp

/-! ## Operations -/

/-- Operations neither add views nor remove them. -/
theorem observed_applyOperationToSyncPoints {t : SyncTree} (h : ViewsWF [] t.syncPointTree)
    (op : Operation) (p : Path) :
    Observed (t.applyOperationToSyncPoints op).1.syncPointTree p ↔ Observed t.syncPointTree p := by
  have hp := passed_applyOperationToSyncPoints h op p
  unfold Observed
  rcases Option.eq_none_or_eq_some (t.syncPointTree.valueAtPath p) with hv | ⟨v, hv⟩
  · rw [hv] at hp ⊢
    rw [hp.1]
  · rcases Option.eq_none_or_eq_some (concerning op.path op p) with ho | ⟨op', ho⟩
    · rw [hv, ho] at hp
      rw [hp.1, hv]
    · rw [hv, ho] at hp
      obtain ⟨server, -, he, -⟩ := hp
      rw [he, hv]
      exact Iff.rfl

end SyncTree

end Firebase
