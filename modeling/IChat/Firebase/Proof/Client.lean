import IChat.Firebase.Client
import IChat.Firebase.Proof.Order

/-!
# The order in which observers are called

The blocks that observe a location are first called in the order in which they were made
(`Client.calls_in_order`), whatever else the program does and whenever the queues run, as long as
the server refuses no query. `Client.Inv` ties the blocks that wait on both queues to a run of the
repository, whose listeners are told in order.
-/

open ImmutableTree

namespace Firebase

/-- The nodes are well-formed, and the server refuses no query. -/
def ClientEvent.Accepted : ClientEvent → Prop
  | .setValue _ newData => newData.WF
  | .message e => e.Nodes ∧ ∀ path, e ≠ .listenResponse path false
  | _ => True

theorem toldAt_append_congr {p : Path} {xs ys : List DataEvent} (h : toldAt p xs = toldAt p ys)
    (e : DataEvent) : toldAt p (xs ++ [e]) = toldAt p (ys ++ [e]) := by
  have hnodup : ((eventsAt p [e]).map (·.eventRegistration)).Nodup := by
    by_cases hp : e.path = p <;> simp [eventsAt, hp]
  rw [toldAt_append rfl hnodup, toldAt_append rfl hnodup, h]

theorem mem_toldAt {p : Path} {events : List DataEvent} {h : Nat} :
    h ∈ toldAt p events ↔ ∃ e ∈ events, e.path = p ∧ e.eventRegistration = h := by
  rw [toldAt, List.mem_eraseDups, List.mem_map]
  simp [eventsAt, and_assoc]

theorem map_eventsAt_self (e : DataEvent) :
    (eventsAt e.path [e]).map (·.eventRegistration) = [e.eventRegistration] := by
  simp [eventsAt]

theorem toldAt_append_of_mem {p : Path} {xs : List DataEvent} {e : DataEvent}
    (h : e.eventRegistration ∈ toldAt e.path xs) : toldAt p (xs ++ [e]) = toldAt p xs := by
  by_cases hp : e.path = p
  · subst hp
    rw [toldAt_append (map_eventsAt_self e) (List.nodup_singleton _)]
    simp [h]
  · exact toldAt_append_nil (by simp [eventsAt, hp]) xs

theorem toldAt_append_of_not_mem {xs : List DataEvent} {e : DataEvent}
    (h : e.eventRegistration ∉ toldAt e.path xs) :
    toldAt e.path (xs ++ [e]) = toldAt e.path xs ++ [e.eventRegistration] := by
  rw [toldAt_append (map_eventsAt_self e) (List.nodup_singleton _)]
  simp [h]

theorem toldAt_mono {p : Path} {xs ys : List DataEvent} (h : xs <+: ys) :
    toldAt p xs <+: toldAt p ys := by
  obtain ⟨zs, rfl⟩ := h
  rw [toldAt, toldAt, eventsAt_append, List.map_append]
  exact eraseDups_mono (List.prefix_append _ _)

/-- A listener that was told stays one that was told. -/
theorem Repo.Patient.mono {p : Path} {r r' : Repo} {e : RepoEvent} (h : r.Patient p e)
    (hraised : r.raised <+: r'.raised) : r'.Patient p e := by
  cases e with
  | removeEventRegistration registration path =>
    intro hp
    obtain ⟨g, hg, he⟩ := h hp
    exact ⟨g, (toldAt_mono hraised).subset hg, he⟩
  | listenResponse path success => exact h
  | set | update | putResponse | onDataUpdate | onDataMerge | addEventRegistration => trivial

namespace Client

/-- The handles of the observers of a location, in the order in which they were made. -/
def handlesAt (p : Path) (c : Client) : List Nat :=
  (c.observers.filter fun o => o.path == p).map (·.handle)

/-- What ties the queues to the events `es` that the repository has taken. -/
structure Inv (es : List RepoEvent) (c : Client) : Prop where
  ran : Machine.run Repo.step Repo.init es = some c.repo
  nodes : ∀ e ∈ es, e.Nodes
  patient : ∀ p, Machine.Meets Repo.step (Repo.Patient p) Repo.init es
  queue : ∀ e ∈ c.sharedQueue, e.Nodes ∧ ∀ p, c.repo.Patient p e
  registered : ∀ p, registeredAt p (es ++ c.sharedQueue) = handlesAt p c
  handles : (c.observers.map (·.handle)).Nodup
  issued : ∀ o ∈ c.observers, o.handle < c.localUid
  fired : c.fired ≤ c.repo.raised.length
  raised : ∀ e ∈ c.calls, e ∈ c.repo.raised
  told : ∀ p, toldAt p c.calls = toldAt p (c.repo.raised.take c.fired)

namespace Inv

variable {es : List RepoEvent} {c c' : Client} {p : Path}

theorem init : Inv [] Client.init where
  ran := rfl
  nodes _ h := by cases h
  patient _ := trivial
  queue _ h := by cases h
  registered _ := rfl
  handles := .nil
  issued _ h := by cases h
  fired := Nat.le_refl 0
  raised _ h := by cases h
  told _ := rfl

theorem nodup_handlesAt (h : Inv es c) (p : Path) : (handlesAt p c).Nodup :=
  h.handles.sublist (List.filter_sublist.map _)

theorem registered_isPrefix (h : Inv es c) (p : Path) : registeredAt p es <+: handlesAt p c := by
  rw [← h.registered, Repo.registeredAt_append]
  exact List.prefix_append _ _

/-- The repository tells the observers in order. -/
theorem told_isPrefix (h : Inv es c) (p : Path) : toldAt p c.repo.raised <+: handlesAt p c := by
  have hnodup : (registeredAt p es).Nodup :=
    (h.nodup_handlesAt p).sublist (h.registered_isPrefix p).sublist
  exact (Repo.inOrder_of_run h.nodes h.ran (h.patient p) hnodup).told_isPrefix.trans
    (h.registered_isPrefix p)

/-- So does the main queue. -/
theorem calls_isPrefix (h : Inv es c) (p : Path) : toldAt p c.calls <+: handlesAt p c := by
  rw [h.told]
  exact (toldAt_mono (List.take_prefix _ _)).trans (h.told_isPrefix p)

/-- An event is for an observer of its location. -/
theorem observer_of_raised (h : Inv es c) {e : DataEvent} (he : e ∈ c.repo.raised) :
    ∃ o, c.observer e.eventRegistration = some o ∧ o.handle = e.eventRegistration ∧
      o.path = e.path := by
  have htold : e.eventRegistration ∈ toldAt e.path c.repo.raised :=
    mem_toldAt.2 ⟨e, he, rfl, rfl⟩
  obtain ⟨o, ho, hhandle⟩ := List.mem_map.1 ((h.told_isPrefix e.path).subset htold)
  obtain ⟨hmem, hpath⟩ := List.mem_filter.1 ho
  obtain ⟨o', ho'⟩ : ∃ o', c.observer e.eventRegistration = some o' :=
    Option.isSome_iff_exists.1 (List.find?_isSome.2 ⟨o, hmem, by simpa using hhandle⟩)
  have hsame : o' = o := by
    have hhandle' := List.find?_some ho'
    exact List.inj_on_of_nodup_map h.handles (List.mem_of_find?_eq_some ho') hmem
      ((by simpa using hhandle' : o'.handle = e.eventRegistration).trans hhandle.symm)
  exact ⟨o', ho', by rw [hsame, hhandle], by rw [hsame]; simpa using hpath⟩

/-- An observer that was called was called for its location. -/
theorem firstCall_eq_false (h : Inv es c) {e : DataEvent} (he : e ∈ c.repo.raised) :
    c.firstCall e.eventRegistration = false ↔ e.eventRegistration ∈ toldAt e.path c.calls := by
  rw [firstCall, Bool.not_eq_false', List.any_eq_true, mem_toldAt]
  constructor
  · rintro ⟨x, hx, heq⟩
    have heq : x.eventRegistration = e.eventRegistration := by simpa using heq
    obtain ⟨o, ho, -, hpath⟩ := h.observer_of_raised he
    obtain ⟨o', ho', -, hpath'⟩ := h.observer_of_raised (h.raised x hx)
    rw [heq, ho] at ho'
    cases ho'
    exact ⟨x, hx, hpath'.symm.trans hpath, heq⟩
  · rintro ⟨x, hx, -, heq⟩
    exact ⟨x, hx, by simpa using heq⟩

/-! ## Steps -/

/-- A block of the program is left to the client's queue. -/
theorem enqueue (h : Inv es c) {e : RepoEvent} (he : e.Nodes) (hp : ∀ p, c.repo.Patient p e)
    (hr : ∀ p, e.registers p = []) :
    Inv es { c with sharedQueue := c.sharedQueue ++ [e] } :=
  { h with
    queue := fun x hx => (List.mem_append.1 hx).elim (h.queue x) fun hx => by
      rw [List.mem_singleton.1 hx]
      exact ⟨he, hp⟩
    registered := fun p => by
      have hnone : registeredAt p [e] = [] := (List.append_nil _).trans (hr p)
      show registeredAt p (es ++ (c.sharedQueue ++ [e])) = handlesAt p c
      rw [← List.append_assoc, Repo.registeredAt_append, hnone, List.append_nil, h.registered] }

theorem observe (h : Inv es c) (path : Path) (single : Bool) : Inv es (c.observe path single) :=
  { h with
    queue := fun x hx => (List.mem_append.1 hx).elim (h.queue x) fun hx => by
      rw [List.mem_singleton.1 hx]
      exact ⟨trivial, fun _ => trivial⟩
    registered := fun p => by
      have hone : registeredAt p [.addEventRegistration c.localUid path] =
          ([⟨c.localUid, path, single⟩].filter fun o : Observer => o.path == p).map (·.handle) := by
        by_cases hp : path = p <;> simp [registeredAt, RepoEvent.registers, hp]
      show registeredAt p (es ++ (c.sharedQueue ++ [_])) =
        ((c.observers ++ [_]).filter _).map _
      rw [← List.append_assoc, Repo.registeredAt_append, h.registered, hone, List.filter_append,
        List.map_append]
      rfl
    handles := by
      show ((c.observers ++ [_]).map _).Nodup
      rw [List.map_append]
      refine List.nodup_append.2 ⟨h.handles, List.nodup_singleton _, fun a ha b hb hab => ?_⟩
      obtain ⟨o, ho, rfl⟩ := List.mem_map.1 ha
      rw [List.map_singleton, List.mem_singleton] at hb
      exact absurd (hab.trans hb) (Nat.ne_of_lt (h.issued o ho))
    issued := fun o ho => (List.mem_append.1 ho).elim
      (fun ho => Nat.lt_succ_of_lt (h.issued o ho)) fun ho => by
        rw [List.mem_singleton.1 ho]
        exact Nat.lt_succ_self _ }

/-- The client's queue runs a block, or takes a message. -/
theorem onRepo (h : Inv es c) {queue : List RepoEvent} (hq : ∀ x ∈ queue, x ∈ c.sharedQueue)
    {e : RepoEvent} (he : e.Nodes) (hp : ∀ p, c.repo.Patient p e)
    (hr : ∀ p, registeredAt p (es ++ [e] ++ queue) = registeredAt p (es ++ c.sharedQueue))
    (hs : { c with sharedQueue := queue }.onRepo e = some c') : Inv (es ++ [e]) c' := by
  obtain ⟨repo, hstep, rfl⟩ := Option.map_eq_some_iff.1 hs
  obtain ⟨events, hraised, -⟩ := Repo.step_tells (Repo.run_inv h.nodes h.ran) he hstep
  have hgrows : c.repo.raised <+: repo.raised := by
    rw [hraised]
    exact List.prefix_append _ _
  have hstep : c.repo.step e = some repo := hstep
  refine {
    ran := by rw [Machine.run_append, h.ran, Option.bind_some, Machine.run_cons, hstep]; rfl
    nodes := fun x hx => (List.mem_append.1 hx).elim (h.nodes x) fun hx => by
      rw [List.mem_singleton.1 hx]
      exact he
    patient := fun p => Machine.meets_concat (h.patient p) h.ran (hp p)
    queue := fun x hx =>
      ⟨(h.queue x (hq x hx)).1, fun p => ((h.queue x (hq x hx)).2 p).mono hgrows⟩
    registered := fun p => (hr p).trans (h.registered p)
    handles := h.handles
    issued := h.issued
    fired := h.fired.trans hgrows.length_le
    raised := fun x hx => hgrows.subset (h.raised x hx)
    told := fun p => ?_ }
  show toldAt p c.calls = toldAt p (repo.raised.take c.fired)
  rw [h.told, hraised, List.take_append_of_le_length h.fired]

/-- What the main queue makes of the next event. -/
theorem fireEvent_cases (h : Inv es c) :
    c.fireEvent = (c, none) ∨ ∃ e o, c.repo.raised[c.fired]? = some e ∧
      c.observer e.eventRegistration = some o ∧ o.handle = e.eventRegistration ∧
      o.path = e.path ∧
      ((o.single = true ∧ c.firstCall e.eventRegistration = false ∧
          c.fireEvent = ({ c with fired := c.fired + 1 }, none)) ∨
        (o.single = true → c.firstCall e.eventRegistration = true) ∧
          c.fireEvent = ({ (if o.single then c.removeObserver o else c) with
            fired := c.fired + 1, calls := c.calls ++ [e] }, some e)) := by
  cases hnext : c.repo.raised[c.fired]? with
  | none => exact .inl (by simp only [fireEvent, hnext])
  | some e =>
    obtain ⟨o, ho, hhandle, hpath⟩ := h.observer_of_raised (List.mem_of_getElem? hnext)
    refine .inr ⟨e, o, rfl, ho, hhandle, hpath, ?_⟩
    have hobserver : ({ c with fired := c.fired + 1 } : Client).observer e.eventRegistration =
        some o := ho
    have hfirst : ({ c with fired := c.fired + 1 } : Client).firstCall o.handle =
        c.firstCall e.eventRegistration := by rw [hhandle]; rfl
    simp only [fireEvent, hnext, hobserver, hfirst]
    cases hsingle : o.single with
    | false => exact .inr ⟨nofun, rfl⟩
    | true =>
      cases hcall : c.firstCall e.eventRegistration with
      | false => exact .inl ⟨rfl, rfl, rfl⟩
      | true => exact .inr ⟨fun _ => rfl, rfl⟩

/-- An event is passed to the program, and a single observer has itself removed. -/
theorem call (h : Inv es c) {e : DataEvent} {o : Observer}
    (hnext : c.repo.raised[c.fired]? = some e) (hhandle : o.handle = e.eventRegistration)
    (hpath : o.path = e.path) :
    Inv es { (if o.single then c.removeObserver o else c) with
      fired := c.fired + 1, calls := c.calls ++ [e] } := by
  have hmem : e ∈ c.repo.raised := List.mem_of_getElem? hnext
  have hfired : c.fired + 1 ≤ c.repo.raised.length := (List.getElem?_eq_some_iff.1 hnext).1
  have hraised : ∀ x ∈ c.calls ++ [e], x ∈ c.repo.raised := fun x hx =>
    (List.mem_append.1 hx).elim (h.raised x) fun hx => List.mem_singleton.1 hx ▸ hmem
  have htold : ∀ p, toldAt p (c.calls ++ [e]) = toldAt p (c.repo.raised.take (c.fired + 1)) := by
    intro p
    rw [List.take_add_one, hnext]
    exact toldAt_append_congr (h.told p) e
  cases o.single with
  | false => exact { h with fired := hfired, raised := hraised, told := htold }
  | true =>
    have hpatient : ∀ p, c.repo.Patient p (.removeEventRegistration (some o.handle) o.path) :=
      fun p hp => ⟨_, mem_toldAt.2 ⟨e, hmem, hpath.symm.trans hp, hhandle.symm⟩, rfl⟩
    have henqueue := h.enqueue (e := .removeEventRegistration (some o.handle) o.path) trivial
      hpatient fun _ => rfl
    exact { henqueue with fired := hfired, raised := hraised, told := htold }

/-- A single observer ignores an event. -/
theorem ignore (h : Inv es c) {e : DataEvent} (hnext : c.repo.raised[c.fired]? = some e)
    (hfirst : c.firstCall e.eventRegistration = false) :
    Inv es { c with fired := c.fired + 1 } := by
  have hmem := (h.firstCall_eq_false (List.mem_of_getElem? hnext)).1 hfirst
  refine { h with
    fired := (List.getElem?_eq_some_iff.1 hnext).1
    told := fun p => ?_ }
  show toldAt p c.calls = toldAt p (c.repo.raised.take (c.fired + 1))
  rw [List.take_add_one, hnext, ← toldAt_append_of_mem hmem]
  exact toldAt_append_congr (h.told p) e

theorem fireEvent (h : Inv es c) : Inv es c.fireEvent.1 := by
  obtain hnone | ⟨e, o, hnext, -, hhandle, hpath, hcases⟩ := h.fireEvent_cases
  · rw [hnone]
    exact h
  · rcases hcases with ⟨-, hfirst, hfire⟩ | ⟨-, hfire⟩
    · rw [hfire]
      exact h.ignore hnext hfirst
    · rw [hfire]
      exact h.call hnext hhandle hpath

/-- An event that is passed to the program. -/
theorem fireEvent_eq_some (h : Inv es c) {e : DataEvent} (he : c.fireEvent.2 = some e) :
    c.fireEvent.1.calls = c.calls ++ [e] ∧ c.fireEvent.1.observers = c.observers ∧
      e ∈ c.repo.raised := by
  obtain hnone | ⟨x, o, hnext, -, -, -, hcases⟩ := h.fireEvent_cases
  · rw [hnone] at he
    cases he
  · rcases hcases with ⟨-, -, hfire⟩ | ⟨-, hfire⟩
    · rw [hfire] at he
      cases he
    · rw [hfire] at he ⊢
      cases he
      refine ⟨rfl, ?_, List.mem_of_getElem? hnext⟩
      cases o.single <;> rfl

theorem fireEvent_eq_none (h : Inv es c) (he : c.fireEvent.2 = none) :
    c.fireEvent.1.calls = c.calls ∧ c.fireEvent.1.observers = c.observers := by
  obtain hnone | ⟨x, o, -, -, -, -, hcases⟩ := h.fireEvent_cases
  · rw [hnone]
    exact ⟨rfl, rfl⟩
  · rcases hcases with ⟨-, -, hfire⟩ | ⟨-, hfire⟩
    · rw [hfire]
      exact ⟨rfl, rfl⟩
    · rw [hfire] at he
      cases he

/-- An observer has one location. -/
theorem path_eq_of_mem (h : Inv es c) {g : Nat} {q : Path} (hp : g ∈ handlesAt p c)
    (hq : g ∈ handlesAt q c) : p = q := by
  obtain ⟨o, ho, rfl⟩ := List.mem_map.1 hp
  obtain ⟨o', ho', hsame⟩ := List.mem_map.1 hq
  obtain ⟨hmem, hpath⟩ := List.mem_filter.1 ho
  obtain ⟨hmem', hpath'⟩ := List.mem_filter.1 ho'
  cases List.inj_on_of_nodup_map h.handles hmem' hmem hsame
  exact (by simpa using hpath : o.path = p).symm.trans (by simpa using hpath')

/-- **Step lemma**: the repository takes at most one event. -/
theorem step (h : Inv es c) {e : ClientEvent} (he : e.Accepted) (hs : c.step e = some c') :
    ∃ es', Inv es' c' := by
  cases e with
  | observe path single =>
    cases hs
    exact ⟨es, h.observe path single⟩
  | setValue path newData =>
    cases hs
    have hnodes : (RepoEvent.set path newData).Nodes := he
    exact ⟨es, h.enqueue hnodes (fun _ => trivial) fun _ => rfl⟩
  | runBlock =>
    simp only [Client.step] at hs
    cases hqueue : c.sharedQueue with
    | nil =>
      rw [hqueue] at hs
      cases hs
      exact ⟨es, h⟩
    | cons e queue =>
      rw [hqueue] at hs
      obtain ⟨hnodes, hpatient⟩ := h.queue e (by rw [hqueue]; exact .head _)
      refine ⟨es ++ [e], h.onRepo (fun x hx => ?_) hnodes hpatient (fun p => ?_) hs⟩
      · rw [hqueue]
        exact .tail _ hx
      · rw [hqueue, List.append_assoc]
        rfl
  | message e =>
    simp only [Client.step] at hs
    split at hs
    · rename_i hmessage
      have hpatient : ∀ p, c.repo.Patient p e := by
        intro p
        cases e with
        | listenResponse path success =>
          cases success with
          | true => exact fun _ => rfl
          | false => exact absurd rfl (he.2 path)
        | removeEventRegistration => cases hmessage
        | set | update | putResponse | onDataUpdate | onDataMerge | addEventRegistration => trivial
      have hnone : ∀ p, e.registers p = [] := by
        intro p
        cases e <;> first | rfl | cases hmessage
      refine ⟨es ++ [e], h.onRepo (fun x (hx : x ∈ c.sharedQueue) => hx) he.1 hpatient
        (fun p => ?_) hs⟩
      have hsingle : registeredAt p [e] = [] := (List.append_nil _).trans (hnone p)
      rw [Repo.registeredAt_append, Repo.registeredAt_append, hsingle, List.append_nil,
        Repo.registeredAt_append]
    · cases hs
      exact ⟨es, h⟩
  | fireEvent =>
    cases hs
    exact ⟨es, h.fireEvent⟩

end Inv

theorem handlesAt_sublist {c c' : Client} (h : c.observers <+: c'.observers) (p : Path) :
    (handlesAt p c).Sublist (handlesAt p c') :=
  (h.sublist.filter _).map _

/-- Only the main queue calls the program. -/
theorem calls_of_step {c c' : Client} {e : ClientEvent} (hs : c.step e = some c')
    (he : e ≠ .fireEvent) : c'.calls = c.calls ∧ c.observers <+: c'.observers := by
  cases e with
  | observe path single =>
    cases hs
    exact ⟨rfl, List.prefix_append _ _⟩
  | setValue path newData =>
    cases hs
    exact ⟨rfl, List.prefix_refl _⟩
  | runBlock =>
    simp only [step] at hs
    split at hs
    · cases hs
      exact ⟨rfl, List.prefix_refl _⟩
    · obtain ⟨repo, -, rfl⟩ := Option.map_eq_some_iff.1 hs
      exact ⟨rfl, List.prefix_refl _⟩
  | message e =>
    simp only [step] at hs
    split at hs
    · obtain ⟨repo, -, rfl⟩ := Option.map_eq_some_iff.1 hs
      exact ⟨rfl, List.prefix_refl _⟩
    · cases hs
      exact ⟨rfl, List.prefix_refl _⟩
  | fireEvent => exact absurd rfl he

/-! ## Runs -/

theorem inv_of_run {es : List ClientEvent} (hes : ∀ e ∈ es, e.Accepted) {c : Client}
    (hrun : Machine.run step init es = some c) : ∃ fs, Inv fs c :=
  Machine.run_keeps (I := fun c => ∃ fs, Inv fs c) hrun ⟨[], .init⟩
    fun e he _ _ ⟨_, h⟩ hs => h.step (hes e he) hs

/-- **Observers are first called in order**: at every location, in every run in which the server
refuses no query. -/
theorem calls_in_order {es : List ClientEvent} (hes : ∀ e ∈ es, e.Accepted) {c : Client}
    (hrun : Machine.run step init es = some c) (p : Path) : toldAt p c.calls <+: handlesAt p c := by
  obtain ⟨fs, h⟩ := inv_of_run hes hrun
  exact h.calls_isPrefix p

/-- A location is observed, and read once, before the server answers. -/
def oneAnswer : List ClientEvent :=
  [.observe ["users"] false, .observe ["users"] true, .runBlock, .runBlock,
    .message (.onDataUpdate ["users"] (nodeFrom (.dict [("bob", .str "Bob")]))), .fireEvent,
    .fireEvent]

theorem calls_in_order_once : ∃ c, Machine.run step init oneAnswer = some c ∧
    toldAt ["users"] c.calls = [0, 1] ∧ toldAt ["users"] c.calls <+: handlesAt ["users"] c := by
  have hes : ∀ e ∈ oneAnswer, e.Accepted := by
    refine List.forall_mem_cons.2 ⟨trivial, List.forall_mem_cons.2 ⟨trivial,
      List.forall_mem_cons.2 ⟨trivial, List.forall_mem_cons.2 ⟨trivial,
      List.forall_mem_cons.2 ⟨⟨wf_nodeFrom _, fun _ h => by cases h⟩, List.forall_mem_cons.2
      ⟨trivial, List.forall_mem_cons.2 ⟨trivial, fun _ h => by cases h⟩⟩⟩⟩⟩⟩⟩
  exact ⟨_, rfl, by decide +kernel, calls_in_order hes rfl ["users"]⟩

end Client

end Firebase
