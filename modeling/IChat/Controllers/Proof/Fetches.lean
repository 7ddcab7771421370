import IChat.Controllers.Fetches
import IChat.Controllers.Proof.Search
import IChat.Firebase.Proof.Client
import IChat.Manager.Proof.Spec

/-!
# The fetches of the search screen complete in order

The client calls the observers of `users` in the order in which they were made, so that a fetch that
completes is always the oldest one open (`SearchSession.fetches_complete_in_order`). The latest
search then wins as long as none is answered from the users fetched before while a fetch is open
(`SearchSession.latest_search_wins_in_order`).
-/

namespace IChat

open Firebase Async

/-- `fetchedUsers` is the completion of `getallUser`. -/
theorem getallUser_eq : DatabaseManager.getallUser =
    .read ["users"] fun snapshot => .ret (fetchedUsers snapshot) := by
  rw [DatabaseManager.getallUser, atChild, child_users]
  refine congrArg (Prog.read ["users"]) (funext fun snapshot => ?_)
  unfold fetchedUsers
  cases snapshot.asStringDictArray <;> rfl

/-- Of a list in order, those who are not yet up: the next one comes first. -/
theorem head_of_next {done all waiting : List Nat} {h : Nat} (hnodup : all.Nodup)
    (hnext : done ++ [h] <+: all) (hsub : waiting.Sublist all) (hwaits : ∀ g ∈ waiting, g ∉ done)
    (hh : h ∈ waiting) : ∃ rest, waiting = h :: rest := by
  obtain ⟨later, rfl⟩ := hnext
  have hrest : waiting.Sublist (h :: later) := by
    rw [List.append_assoc, List.sublist_append_iff] at hsub
    obtain ⟨w₁, w₂, rfl, h₁, h₂⟩ := hsub
    cases w₁ with
    | nil => exact h₂
    | cons g w₁ => exact absurd (h₁.subset (.head _)) (hwaits g (.head _))
  cases hrest with
  | cons_cons _ hlater => exact ⟨_, rfl⟩
  | cons _ hlater =>
    rw [List.append_assoc] at hnodup
    exact absurd (hlater.subset hh) (List.nodup_cons.1 (List.nodup_append.1 hnodup).2.1).1

namespace SearchSession

variable {u : Unicode} {s s' : SearchSession}

/-- The open fetches are observers of `users` that were not called. -/
structure Inv (s : SearchSession) : Prop where
  client : ∃ es, Client.Inv es s.client
  sub : s.fetching.Sublist (Client.handlesAt ["users"] s.client)
  waits : ∀ h ∈ s.fetching, h ∉ toldAt ["users"] s.client.calls
  length : s.fetching.length = s.screen.fetches.length

theorem Inv.opened : Inv opened where
  client := ⟨[], .init⟩
  sub := .slnil
  waits _ h := by cases h
  length := rfl

/-- The event that a step of the session is on the screen. -/
inductive Origin (s s' : SearchSession) : SessionEvent → SearchEvent → Prop
  | screen {e : SearchEvent} : (∀ i result, e ≠ .getallUser i result) → Origin s s' (.screen e) e
  | completed {x : DataEvent} : s'.client.calls = s.client.calls ++ [x] → x.path = ["users"] →
      Origin s s' (.client .fireEvent) (.getallUser 0 (fetchedUsers (val x.snapshot)))

/-- A step on the client's queues that calls nobody. -/
theorem Inv.quiet (h : s.Inv) {client : Client} (hclient : ∃ es, Client.Inv es client)
    (hcalls : client.calls = s.client.calls)
    (hobservers : s.client.observers <+: client.observers) :
    Inv { s with client } where
  client := hclient
  sub := h.sub.trans (Client.handlesAt_sublist hobservers _)
  waits g hg := by
    show g ∉ toldAt ["users"] client.calls
    rw [hcalls]
    exact h.waits g hg
  length := h.length

/-- A step on the screen that starts no fetch and completes none. -/
theorem Inv.onScreen (h : s.Inv) {screen : NewConversationViewController}
    (hfetches : screen.fetches = s.screen.fetches) : Inv { s with screen } where
  client := h.client
  sub := h.sub
  waits := h.waits
  length := by
    show s.fetching.length = screen.fetches.length
    rw [hfetches]
    exact h.length

theorem Inv.searchBarSearchButtonClicked (h : s.Inv) (text : String) :
    (s.searchBarSearchButtonClicked u text).Inv := by
  have hfetches :=
    NewConversationViewController.searchBarSearchButtonClicked_fetches u s.screen text
  unfold SearchSession.searchBarSearchButtonClicked
  by_cases hcached : isBlank text = true ∨ s.screen.hasFetched = true
  · rw [if_pos hcached] at hfetches
    rw [if_pos (by simpa using hcached)]
    exact h.onScreen hfetches
  · rw [if_neg hcached] at hfetches
    rw [if_neg (by simpa using hcached)]
    obtain ⟨es, hclient⟩ := h.client
    have hobserve := hclient.observe ["users"] true
    have hnew : Client.handlesAt ["users"] (s.client.observe ["users"] true) =
        Client.handlesAt ["users"] s.client ++ [s.client.localUid] := by
      simp [Client.handlesAt, Client.observe]
    refine ⟨⟨es, hobserve⟩, ?_, fun g hg => ?_, ?_⟩
    · show (s.fetching ++ [s.client.localUid]).Sublist _
      rw [hnew]
      exact h.sub.append (List.Sublist.refl _)
    · rcases List.mem_append.1 hg with hg | hg
      · exact h.waits g hg
      · -- the handle is new
        rw [List.mem_singleton.1 hg]
        intro htold
        obtain ⟨o, ho, hhandle⟩ := List.mem_map.1 ((hclient.calls_isPrefix ["users"]).subset htold)
        exact absurd hhandle (Nat.ne_of_lt (hclient.issued o (List.mem_of_mem_filter ho)))
    · show (s.fetching ++ [s.client.localUid]).length = _
      rw [hfetches, List.length_append, List.length_append, h.length]
      rfl

/-- An observer is called: no open fetch, or the oldest one. -/
theorem called_cases (h : s.Inv) {es : List RepoEvent} {client : Client} {x : DataEvent}
    (hclient : Client.Inv es client) (hcalls : client.calls = s.client.calls ++ [x])
    (hobservers : client.observers = s.client.observers) (hx : x ∈ client.repo.raised) :
    (x.eventRegistration ∉ s.fetching ∧ ({ s with client }.called u x) = { s with client }) ∨
      x.path = ["users"] ∧ ∃ rest, s.fetching = x.eventRegistration :: rest ∧
        ({ s with client }.called u x) = { s with
          client
          screen := s.screen.getallUser u 0 (fetchedUsers (val x.snapshot))
          fetching := rest } := by
  have hhandles : ∀ p, Client.handlesAt p client = Client.handlesAt p s.client := fun p => by
    rw [Client.handlesAt, hobservers]
    rfl
  by_cases hmem : x.eventRegistration ∈ s.fetching
  · have hpath : x.path = ["users"] := by
      refine hclient.path_eq_of_mem ((hclient.told_isPrefix x.path).subset ?_) ?_
        (g := x.eventRegistration)
      · exact mem_toldAt.2 ⟨x, hx, rfl, rfl⟩
      · rw [hhandles]
        exact h.sub.subset hmem
    have hnext : toldAt ["users"] s.client.calls ++ [x.eventRegistration] <+:
        Client.handlesAt ["users"] s.client := by
      have hgrows := hclient.calls_isPrefix ["users"]
      rw [hcalls, hhandles, ← hpath, toldAt_append_of_not_mem (hpath ▸ h.waits _ hmem)] at hgrows
      rwa [hpath] at hgrows
    have hnodup : (Client.handlesAt ["users"] s.client).Nodup := by
      rw [← hhandles]
      exact hclient.nodup_handlesAt _
    obtain ⟨rest, hrest⟩ := head_of_next hnodup hnext h.sub h.waits hmem
    refine .inr ⟨hpath, rest, hrest, ?_⟩
    simp [called, hrest]
  · refine .inl ⟨hmem, ?_⟩
    have hi : ¬ s.fetching.idxOf x.eventRegistration < s.fetching.length := by
      rwa [List.idxOf_lt_length_iff]
    simp only [called, if_neg hi]

/-- **Step lemma**: the session keeps the fetches in order, and a step is one of the screen's, in
which only the oldest fetch completes, or leaves the screen alone. -/
theorem Inv.step (h : s.Inv) {e : SessionEvent} (he : ∀ f, e = .client f → f.Accepted)
    (hs : s.step u e = some s') :
    s'.Inv ∧ s.client.calls <+: s'.client.calls ∧
      (s'.screen = s.screen ∨ ∃ f, Origin s s' e f ∧ s.screen.step u f = some s'.screen) := by
  obtain ⟨es, hclient⟩ := h.client
  cases e with
  | screen e =>
    cases e with
    | searchBarSearchButtonClicked text =>
      cases hs
      refine ⟨h.searchBarSearchButtonClicked text, ?_, .inr ⟨_, .screen nofun, ?_⟩⟩
      · unfold SearchSession.searchBarSearchButtonClicked
        simp only
        split <;> exact List.prefix_refl _
      · unfold SearchSession.searchBarSearchButtonClicked
        simp only
        split <;> rfl
    | getallUser i result =>
      cases hs
      exact ⟨h, List.prefix_refl _, .inl rfl⟩
    | cellForRowAt row =>
      obtain ⟨screen, hscreen, rfl⟩ := Option.map_eq_some_iff.1 hs
      have hfetches : screen.fetches = s.screen.fetches := by
        obtain ⟨cells, rfl⟩ := NewConversationViewController.step_cellForRowAt hscreen
        rfl
      exact ⟨h.onScreen hfetches, List.prefix_refl _, .inr ⟨_, .screen nofun, hscreen⟩⟩
    | didSelectRowAt row =>
      obtain ⟨screen, hscreen, rfl⟩ := Option.map_eq_some_iff.1 hs
      have hfetches : screen.fetches = s.screen.fetches := by
        obtain ⟨completions, rfl⟩ := NewConversationViewController.step_didSelectRowAt hscreen
        rfl
      exact ⟨h.onScreen hfetches, List.prefix_refl _, .inr ⟨_, .screen nofun, hscreen⟩⟩
  | client f =>
    by_cases hfire : f = .fireEvent
    · subst hfire
      simp only [SearchSession.step] at hs
      cases hcall : s.client.fireEvent.2 with
      | none =>
        rw [hcall] at hs
        cases hs
        obtain ⟨hcalls, hobservers⟩ := hclient.fireEvent_eq_none hcall
        refine ⟨h.quiet ⟨es, hclient.fireEvent⟩ hcalls ?_, ?_, .inl rfl⟩
        · rw [hobservers]
        · show s.client.calls <+: s.client.fireEvent.1.calls
          rw [hcalls]
      | some x =>
        rw [hcall] at hs
        cases hs
        obtain ⟨hcalls, hobservers, hx⟩ := hclient.fireEvent_eq_some hcall
        have hinv := hclient.fireEvent
        have hraised : x ∈ s.client.fireEvent.1.repo.raised :=
          hinv.raised x (by rw [hcalls]; exact List.mem_append_right _ (.head _))
        have hsub : s.fetching.Sublist (Client.handlesAt ["users"] s.client.fireEvent.1) :=
          h.sub.trans (Client.handlesAt_sublist (by rw [hobservers]) _)
        have hgrows : s.client.calls <+: s.client.fireEvent.1.calls := by
          rw [hcalls]
          exact List.prefix_append _ _
        have hwaits : ∀ g ∈ s.fetching, g ≠ x.eventRegistration →
            g ∉ toldAt ["users"] s.client.fireEvent.1.calls := by
          intro g hg hne htold
          rw [hcalls, mem_toldAt] at htold
          obtain ⟨y, hy, hpath, hhandle⟩ := htold
          rcases List.mem_append.1 hy with hy | hy
          · exact h.waits g hg (mem_toldAt.2 ⟨y, hy, hpath, hhandle⟩)
          · exact hne (by rw [← hhandle, List.mem_singleton.1 hy])
        obtain ⟨hmem, he⟩ | ⟨hpath, rest, hrest, he⟩ :=
          called_cases (u := u) h hinv hcalls hobservers hraised
        · rw [he]
          refine ⟨⟨⟨es, hinv⟩, hsub, fun g hg => hwaits g hg fun heq => hmem (heq ▸ hg), h.length⟩,
            hgrows, .inl rfl⟩
        · rw [he]
          have hnodup : (x.eventRegistration :: rest).Nodup := by
            rw [← hrest]
            exact (hinv.nodup_handlesAt _).sublist hsub
          have hlength := h.length
          rw [hrest] at hlength
          refine ⟨⟨⟨es, hinv⟩, ?_, fun g hg => ?_, ?_⟩, hgrows,
            .inr ⟨_, .completed hcalls hpath, rfl⟩⟩
          · rw [hrest] at hsub
            exact (List.sublist_cons_self _ _).trans hsub
          · refine hwaits g (by rw [hrest]; exact .tail _ hg) fun heq => ?_
            exact (List.nodup_cons.1 hnodup).1 (heq ▸ hg)
          · rw [NewConversationViewController.getallUser_fetches, List.length_eraseIdx_of_lt
              (by rw [← hlength]; exact Nat.succ_pos _), ← hlength]
            rfl
    · have hs : (s.client.step f).map (fun client => { s with client }) = some s' := by
        cases f <;> first | exact hs | exact absurd rfl hfire
      obtain ⟨client, hstep, rfl⟩ := Option.map_eq_some_iff.1 hs
      obtain ⟨hcalls, hobservers⟩ := Client.calls_of_step hstep hfire
      refine ⟨h.quiet (hclient.step (he f rfl) hstep) hcalls hobservers, ?_, .inl rfl⟩
      show s.client.calls <+: client.calls
      rw [hcalls]

/-! ## Runs -/

/-- The event of the screen completes the oldest fetch, with what the client has answered. -/
def InOrder (s : SearchSession) : SearchEvent → Prop
  | .getallUser i result => i = 0 ∧
    ∃ x ∈ s.client.calls, x.path = ["users"] ∧ result = fetchedUsers (val x.snapshot)
  | _ => True

theorem InOrder.mono {f : SearchEvent} (h : InOrder s f)
    (hcalls : s.client.calls <+: s'.client.calls) : InOrder s' f := by
  cases f with
  | getallUser i result =>
    obtain ⟨hi, x, hx, hpath, hresult⟩ := h
    exact ⟨hi, x, hcalls.subset hx, hpath, hresult⟩
  | searchBarSearchButtonClicked | cellForRowAt | didSelectRowAt => trivial

theorem Origin.inOrder {e : SessionEvent} {f : SearchEvent} (h : Origin s s' e f) :
    InOrder s' f := by
  cases h with
  | screen hne =>
    cases f with
    | getallUser i result => exact absurd rfl (hne i result)
    | searchBarSearchButtonClicked | cellForRowAt | didSelectRowAt => trivial
  | completed hcalls hpath =>
    exact ⟨rfl, _, by rw [hcalls]; exact List.mem_append_right _ (.head _), hpath, rfl⟩

/-- Two searches before the server answers. -/
def twoFetches : List SessionEvent :=
  [.screen (.searchBarSearchButtonClicked "ada"), .screen (.searchBarSearchButtonClicked "omar"),
    .client .runBlock, .client .runBlock,
    .client (.message (.onDataUpdate ["users"] (nodeFrom (.arr
      [.dict [("name", .str "Ada Said")], .dict [("name", .str "Omar Adel")]])))),
    .client .fireEvent, .client .fireEvent]

theorem twoFetches_accepted : ∀ f, .client f ∈ twoFetches → f.Accepted := by
  intro f hf
  simp only [twoFetches, List.mem_cons, SessionEvent.client.injEq, reduceCtorEq, false_or,
    List.not_mem_nil, or_false] at hf
  obtain rfl | rfl | rfl | rfl | rfl := hf
  · trivial
  · trivial
  · exact ⟨wf_nodeFrom _, fun _ h => by cases h⟩
  · trivial
  · trivial

/-- The users are never answered from those fetched before while a fetch is open. -/
def Uncached (s : SearchSession) : SessionEvent → Prop
  | .screen (.searchBarSearchButtonClicked text) =>
    isBlank text = true ∨ s.screen.hasFetched = false ∨ s.screen.fetches = []
  | _ => True

/-- The last open fetch is that of the latest search. -/
def FetchesLatest (s : NewConversationViewController) : Prop :=
  s.fetches ≠ [] → s.fetches.getLast? = s.submitted.getLast?

theorem FetchesLatest.answersLatest {s : NewConversationViewController} (h : FetchesLatest s)
    (i : Nat) (result : Except DatabaseError (List UserEntry)) :
    NewConversationViewController.AnswersLatest u s (.getallUser i result) := by
  cases result with
  | error e => trivial
  | ok usersArray =>
    intro hlength query hquery latest hlatest
    obtain ⟨only, honly⟩ := List.length_eq_one_iff.1 hlength
    have hlast := h (by rw [honly]; exact List.cons_ne_nil _ _)
    rw [honly] at hlast hquery
    rw [← hlast] at hlatest
    have hi : i = 0 := by
      have hlt := (List.getElem?_eq_some_iff.1 hquery).1
      simpa using hlt
    subst hi
    cases hquery
    cases hlatest
    rfl

theorem FetchesLatest.step {s s' : NewConversationViewController} (h : FetchesLatest s)
    {e : SearchEvent} (hi : ∀ i result, e = .getallUser i result → i = 0)
    (huncached : ∀ text, e = .searchBarSearchButtonClicked text →
      isBlank text = true ∨ s.hasFetched = false ∨ s.fetches = [])
    (hs : s.step u e = some s') : FetchesLatest s' := by
  cases e with
  | searchBarSearchButtonClicked text =>
    cases hs
    intro hne
    rw [NewConversationViewController.searchBarSearchButtonClicked_fetches] at hne ⊢
    rw [NewConversationViewController.searchBarSearchButtonClicked_submitted]
    by_cases hblank : isBlank text = true
    · rw [if_pos (.inl hblank)] at hne ⊢
      rw [if_pos hblank]
      exact h hne
    · rw [if_neg hblank, List.getLast?_concat]
      obtain hfetched | hnone := (huncached text rfl).resolve_left hblank
      · rw [if_neg (by simp [hblank, hfetched]), List.getLast?_concat]
      · by_cases hfetched : s.hasFetched = true
        · rw [if_pos (.inr hfetched)] at hne
          exact absurd hnone hne
        · rw [if_neg (by simp [hblank, hfetched]), List.getLast?_concat]
  | getallUser i result =>
    cases hs
    cases hi i result rfl
    intro hne
    rw [NewConversationViewController.getallUser_fetches] at hne ⊢
    rw [NewConversationViewController.getallUser_submitted]
    cases hfetches : s.fetches with
    | nil => rw [hfetches] at hne; exact absurd rfl hne
    | cons query fetches =>
      rw [hfetches] at hne
      have hne : fetches ≠ [] := hne
      have hlast := h (by rw [hfetches]; exact List.cons_ne_nil _ _)
      rw [← hlast, hfetches]
      obtain ⟨q, rest, rfl⟩ := List.exists_cons_of_ne_nil hne
      rfl
  | cellForRowAt row =>
    obtain ⟨cells, rfl⟩ := NewConversationViewController.step_cellForRowAt hs
    exact h
  | didSelectRowAt row =>
    obtain ⟨completions, rfl⟩ := NewConversationViewController.step_didSelectRowAt hs
    exact h

/-- **The latest search wins in order**: if no search is answered from the users fetched before
while a fetch is open, and the users can be read whenever they are, then once no fetch is open the
screen shows the users that match the latest query. -/
theorem latest_search_wins_in_order (u : Unicode) {es : List SessionEvent}
    (hes : ∀ f, .client f ∈ es → f.Accepted)
    (huncached : Machine.Meets (step u) Uncached opened es) {s : SearchSession}
    (hrun : Machine.run (step u) opened es = some s)
    (hok : ∀ x ∈ s.client.calls, x.path = ["users"] → (fetchedUsers (val x.snapshot)).isOk) :
    NewConversationViewController.ShowsLatest u s.screen := by
  refine ((Machine.run_inv (I := fun es s => (∀ f, .client f ∈ es → f.Accepted) →
    s.Inv ∧ FetchesLatest s.screen ∧
      ((∀ x ∈ s.client.calls, x.path = ["users"] → (fetchedUsers (val x.snapshot)).isOk) →
        NewConversationViewController.ShowsLatest u s.screen)) hrun huncached ?_ ?_) hes).2.2 hok
  · exact fun _ => ⟨.opened, fun hne => absurd rfl hne, fun _ _ latest hl => by cases hl⟩
  · intro es e s₁ s₂ _ h hC hs hes
    obtain ⟨hinv, hlatest, hshows⟩ := h fun f hf => hes f (List.mem_append_left _ hf)
    have haccepted : ∀ f, e = .client f → f.Accepted := fun f hf =>
      hes f (List.mem_append_right _ (by rw [hf]; exact .head _))
    obtain ⟨hinv', hcalls, hscreen⟩ := hinv.step haccepted hs
    refine ⟨hinv', ?_, fun hok => ?_⟩
    · obtain hsame | ⟨f, horigin, hf⟩ := hscreen
      · rw [hsame]
        exact hlatest
      · refine hlatest.step (fun i result he => ?_) (fun text he => ?_) hf
        · subst he
          exact horigin.inOrder.1
        · subst he
          cases horigin
          exact hC
    · have hshows := hshows fun x hx => hok x (hcalls.subset hx)
      obtain hsame | ⟨f, horigin, hf⟩ := hscreen
      · rw [hsame]
        exact hshows
      · refine hshows.step ?_ ?_ hf
        · cases f with
          | getallUser i result =>
            obtain ⟨-, x, hx, hpath, rfl⟩ := horigin.inOrder
            have hsome := hok x hx hpath
            cases hresult : fetchedUsers (val x.snapshot) with
            | ok usersArray => trivial
            | error e => rw [hresult] at hsome; cases hsome
          | searchBarSearchButtonClicked | cellForRowAt | didSelectRowAt => trivial
        · cases f with
          | getallUser i result => exact hlatest.answersLatest i result
          | searchBarSearchButtonClicked | cellForRowAt | didSelectRowAt => trivial

theorem twoFetches_read : ∃ s, Machine.run (step asciiUnicode) opened twoFetches = some s ∧
    s.screen.submitted.getLast? = some "omar" ∧ s.screen.fetches = [] ∧
      ∀ x ∈ s.client.calls, (fetchedUsers (val x.snapshot)).isOk := by
  have hread : (Machine.run (step asciiUnicode) opened twoFetches).any (fun s =>
      s.screen.submitted.getLast? == some "omar" && s.screen.fetches == [] &&
        s.client.calls.all fun x => (fetchedUsers (val x.snapshot)).isOk) = true := by
    decide +kernel
  obtain ⟨s, hs, hall⟩ := (Option.any_eq_true _ _).1 hread
  simp only [Bool.and_eq_true, beq_iff_eq, List.all_eq_true] at hall
  exact ⟨s, hs, hall.1.1, hall.1.2, hall.2⟩

/-- Omar was searched for last. -/
theorem latest_search_wins_in_order_twice : ∃ s,
    Machine.run (step asciiUnicode) opened twoFetches = some s ∧
      s.screen.submitted.getLast? = some "omar" ∧ s.screen.fetches = [] ∧
      NewConversationViewController.ShowsLatest asciiUnicode s.screen := by
  have huncached : Machine.Meets (step asciiUnicode) Uncached opened twoFetches := by
    refine Machine.meets_cons (.inr (.inl rfl)) rfl (Machine.meets_cons (.inr (.inl rfl)) rfl ?_)
    exact Machine.meets_of_mem (fun e he s => by
      simp only [List.mem_cons, List.not_mem_nil, or_false] at he
      obtain rfl | rfl | rfl | rfl | rfl := he <;> trivial) _
  obtain ⟨s, hs, hlatest, hnone, hread⟩ := twoFetches_read
  exact ⟨s, hs, hlatest, hnone, latest_search_wins_in_order asciiUnicode twoFetches_accepted
    huncached hs fun x hx _ => hread x hx⟩

end SearchSession

end IChat
