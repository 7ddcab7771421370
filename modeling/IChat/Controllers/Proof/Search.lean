import IChat.Controllers.NewConversation
import Mathlib.Data.List.Forall2

/-!
# The search screen

The table of results is always in step with the results (`table_in_step`): it is visible only after
a fetch, and from then on every search fills the results again before it returns. The results shown
are those of the latest search exactly when the last fetch to complete was started by a search for
the same text (`latest_search_wins_iff`).
-/

namespace IChat

open SortedMap

/-- The request that completes is the only one. -/
theorem eraseIdx_eq_nil {α : Type} {l : List α} {i : Nat} (h : l[i]?.isSome) :
    l.eraseIdx i = [] ↔ l.length = 1 := by
  have hlt : i < l.length := by simpa using h
  rw [← List.length_eq_zero_iff, List.length_eraseIdx_of_lt hlt]
  omega

namespace NewConversationViewController

variable {u : Unicode} {s s' : NewConversationViewController}

/-! ## What the handlers change -/

section
variable (u) (s) (item : String)

@[simp] theorem updateUi_users : s.updateUi.users = s.users := by
  unfold updateUi; split <;> rfl

@[simp] theorem updateUi_results : s.updateUi.results = s.results := by
  unfold updateUi; split <;> rfl

@[simp] theorem updateUi_hasFetched : s.updateUi.hasFetched = s.hasFetched := by
  unfold updateUi; split <;> rfl

@[simp] theorem updateUi_fetches : s.updateUi.fetches = s.fetches := by
  unfold updateUi; split <;> rfl

@[simp] theorem updateUi_submitted : s.updateUi.submitted = s.submitted := by
  unfold updateUi; split <;> rfl

@[simp] theorem updateUi_spinner : s.updateUi.spinner = s.spinner := by
  unfold updateUi; split <;> rfl

@[simp] theorem filterUser_users : (s.filterUser u item).users = s.users := by
  unfold filterUser; split <;> simp

@[simp] theorem filterUser_hasFetched : (s.filterUser u item).hasFetched = s.hasFetched := by
  unfold filterUser; split <;> simp

@[simp] theorem filterUser_fetches : (s.filterUser u item).fetches = s.fetches := by
  unfold filterUser; split <;> simp

@[simp] theorem filterUser_submitted : (s.filterUser u item).submitted = s.submitted := by
  unfold filterUser; split <;> simp

end

theorem shown_updateUi (s : NewConversationViewController) : s.updateUi.shown = s.results := by
  unfold updateUi shown reloadData
  split
  · rename_i hempty
    simp [List.isEmpty_iff.1 hempty]
  · simp

theorem filterUser_spinner (h : s.hasFetched = true) (item : String) :
    (s.filterUser u item).spinner = false := by
  simp [filterUser, h]

theorem filterUser_results (h : s.hasFetched = true) (item : String) :
    (s.filterUser u item).results = s.users.filter (nameMatches u item) := by
  simp [filterUser, h]

/-- **What is shown after the users are filtered.** -/
theorem shown_filterUser (h : s.hasFetched = true) (item : String) :
    (s.filterUser u item).shown = s.users.filter (nameMatches u item) := by
  simp only [filterUser, h, ↓reduceIte, shown_updateUi]

theorem cellForRowAt_eq_some {row : Nat} (h : s.cellForRowAt row = some s') :
    ∃ user, s.results[row]? = some user ∧
      s' = { s with cells := Function.update s.cells row (some (find "name" user)) } := by
  simp only [cellForRowAt, Option.bind_eq_bind, Option.pure_def] at h
  obtain ⟨user, hu, hs'⟩ := Option.bind_eq_some_iff.1 h
  exact ⟨user, hu, (Option.some.inj hs').symm⟩

/-- An event for a cell changes the cells only. -/
theorem step_cellForRowAt {row : Nat} (h : s.step u (.cellForRowAt row) = some s') :
    ∃ cells, s' = { s with cells := cells } := by
  simp only [step] at h
  split at h
  · obtain ⟨user, -, rfl⟩ := cellForRowAt_eq_some h
    exact ⟨_, rfl⟩
  · cases h
    exact ⟨_, rfl⟩

theorem didSelectRowAt_eq_some {row : Nat} (h : s.didSelectRowAt row = some s') :
    ∃ user, s.results[row]? = some user ∧
      s' = { s with completions := s.completions ++ [user] } := by
  simp only [didSelectRowAt, Option.bind_eq_bind, Option.pure_def] at h
  obtain ⟨user, hu, hs'⟩ := Option.bind_eq_some_iff.1 h
  exact ⟨user, hu, (Option.some.inj hs').symm⟩

/-- A selection changes the completions only. -/
theorem step_didSelectRowAt {row : Nat} (h : s.step u (.didSelectRowAt row) = some s') :
    ∃ completions, s' = { s with completions := completions } := by
  simp only [step] at h
  split at h
  · obtain ⟨user, -, rfl⟩ := didSelectRowAt_eq_some h
    exact ⟨_, rfl⟩
  · cases h
    exact ⟨_, rfl⟩

theorem getallUser_ok {i : Nat} {query : String} (hi : s.fetches[i]? = some query)
    (usersArray : List UserEntry) :
    s.getallUser u i (.ok usersArray) =
      { s with fetches := s.fetches.eraseIdx i, hasFetched := true, users := usersArray }.filterUser
        u query := by
  simp only [getallUser, hi]

theorem getallUser_error {i : Nat} {query : String} (hi : s.fetches[i]? = some query)
    (e : DatabaseError) :
    s.getallUser u i (.error e) = { s with fetches := s.fetches.eraseIdx i } := by
  simp only [getallUser, hi]

theorem getallUser_none {i : Nat} (hi : s.fetches[i]? = none)
    (result : Except DatabaseError (List UserEntry)) : s.getallUser u i result = s := by
  simp only [getallUser, hi]

/-- What an event does to the screen. -/
inductive Change (u : Unicode) (s : NewConversationViewController) :
    SearchEvent → NewConversationViewController → Prop
  | ignored {e : SearchEvent} : Change u s e s
  | filtered {text : String} : s.hasFetched = true →
      Change u s (.searchBarSearchButtonClicked text)
        ({ s with
          submitted := s.submitted ++ [text], results := [], spinner := true }.filterUser u text)
  | fetching {text : String} : s.hasFetched = false →
      Change u s (.searchBarSearchButtonClicked text)
        { s with
          submitted := s.submitted ++ [text], results := [], spinner := true
          fetches := s.fetches ++ [text] }
  | fetched {i : Nat} {query : String} {usersArray : List UserEntry} :
      s.fetches[i]? = some query →
      Change u s (.getallUser i (.ok usersArray))
        ({ s with
          fetches := s.fetches.eraseIdx i
          hasFetched := true
          users := usersArray }.filterUser u query)
  | failed {i : Nat} {query : String} {e : DatabaseError} : s.fetches[i]? = some query →
      Change u s (.getallUser i (.error e)) { s with fetches := s.fetches.eraseIdx i }
  | cell {row : Nat} {cells : Nat → Option (Option String)} :
      Change u s (.cellForRowAt row) { s with cells := cells }
  | selected {row : Nat} {completions : List UserEntry} :
      Change u s (.didSelectRowAt row) { s with completions := completions }

theorem change_of_step {e : SearchEvent} (h : s.step u e = some s') : Change u s e s' := by
  cases e with
  | searchBarSearchButtonClicked text =>
    cases h
    unfold searchBarSearchButtonClicked searchUsers
    split
    · exact .ignored
    · split
      · rename_i hf
        exact .filtered hf
      · rename_i hf
        exact .fetching (Bool.eq_false_iff.2 hf)
  | getallUser i result =>
    cases h
    cases hi : s.fetches[i]? with
    | none =>
      rw [getallUser_none hi]
      exact .ignored
    | some query =>
      cases result with
      | ok usersArray =>
        rw [getallUser_ok hi]
        exact .fetched hi
      | error e =>
        rw [getallUser_error hi]
        exact .failed hi
  | cellForRowAt row =>
    obtain ⟨cells, rfl⟩ := step_cellForRowAt h
    exact .cell
  | didSelectRowAt row =>
    obtain ⟨completions, rfl⟩ := step_didSelectRowAt h
    exact .selected

/-! ## The table -/

/-- While the table is visible, it has the rows of the results, and its cells show them. -/
structure InStep (s : NewConversationViewController) : Prop where
  fetched : s.tableIsHidden = false → s.hasFetched = true
  rows : s.tableIsHidden = false → s.rows = s.results.length
  cells : s.tableIsHidden = false → ∀ row text, s.cells row = some text →
    ∃ user, s.results[row]? = some user ∧ find "name" user = text

theorem inStep_opened : InStep opened := ⟨nofun, nofun, nofun⟩

theorem inStep_updateUi (h : s.hasFetched = true) : InStep s.updateUi := by
  unfold updateUi
  split
  · exact ⟨nofun, nofun, nofun⟩
  · exact ⟨fun _ => h, fun _ => rfl, nofun⟩

theorem inStep_filterUser (h : s.hasFetched = true) (item : String) :
    InStep (s.filterUser u item) := by
  rw [filterUser, if_pos h]
  exact inStep_updateUi h

/-- A search: with the users there the results are filled again, without them the table is
hidden. -/
theorem InStep.searchBarSearchButtonClicked (h : s.InStep) (text : String) :
    InStep (s.searchBarSearchButtonClicked u text) := by
  unfold NewConversationViewController.searchBarSearchButtonClicked searchUsers
  split
  · exact h
  · split
    · rename_i hf
      exact inStep_filterUser hf text
    · rename_i hf
      have hhidden : ¬ s.tableIsHidden = false := fun hv => hf (h.fetched hv)
      exact ⟨fun hv => absurd hv hhidden, fun hv => absurd hv hhidden,
        fun hv => absurd hv hhidden⟩

theorem InStep.getallUser (h : s.InStep) (i : Nat)
    (result : Except DatabaseError (List UserEntry)) : InStep (s.getallUser u i result) := by
  unfold NewConversationViewController.getallUser
  cases s.fetches[i]? with
  | none => exact h
  | some query =>
    cases result with
    | ok usersArray => exact inStep_filterUser rfl query
    | error e => exact ⟨h.fetched, h.rows, h.cells⟩

theorem hasRow_iff {row : Nat} :
    s.hasRow row = true ↔ s.tableIsHidden = false ∧ row < s.rows := by
  simp [hasRow]

/-- A row that UIKit may ask for is in range. -/
theorem InStep.inRange (h : s.InStep) {row : Nat} (hrow : s.hasRow row = true) :
    ∃ user, s.results[row]? = some user := by
  obtain ⟨hv, hlt⟩ := hasRow_iff.1 hrow
  rw [h.rows hv] at hlt
  exact ⟨s.results[row], List.getElem?_eq_getElem hlt⟩

theorem InStep.cellForRowAt (h : s.InStep) {row : Nat} (hrow : s.hasRow row = true) :
    ∃ s', s.cellForRowAt row = some s' ∧ s'.InStep := by
  obtain ⟨user, hu⟩ := h.inRange hrow
  refine ⟨{ s with cells := Function.update s.cells row (some (find "name" user)) },
    by simp only [NewConversationViewController.cellForRowAt, hu]; rfl, h.fetched, h.rows,
    fun hv r text htext => ?_⟩
  by_cases hr : r = row
  · subst hr
    simp only [Function.update_self, Option.some.injEq] at htext
    exact ⟨user, hu, htext⟩
  · simp only [Function.update_of_ne hr] at htext
    exact h.cells hv r text htext

theorem InStep.didSelectRowAt (h : s.InStep) {row : Nat} (hrow : s.hasRow row = true) :
    ∃ user, s.results[row]? = some user ∧
      s.didSelectRowAt row = some { s with completions := s.completions ++ [user] } := by
  obtain ⟨user, hu⟩ := h.inRange hrow
  exact ⟨user, hu, by simp only [NewConversationViewController.didSelectRowAt, hu]; rfl⟩

/-- **Step lemma**: every event can be taken, and keeps the table in step. -/
theorem InStep.step (h : s.InStep) (e : SearchEvent) :
    ∃ s', NewConversationViewController.step u s e = some s' ∧ s'.InStep := by
  cases e with
  | searchBarSearchButtonClicked text => exact ⟨_, rfl, h.searchBarSearchButtonClicked text⟩
  | getallUser i result => exact ⟨_, rfl, h.getallUser i result⟩
  | cellForRowAt row =>
    simp only [NewConversationViewController.step]
    split
    · rename_i hrow
      exact h.cellForRowAt hrow
    · exact ⟨s, rfl, h⟩
  | didSelectRowAt row =>
    simp only [NewConversationViewController.step]
    split
    · rename_i hrow
      obtain ⟨user, -, hs'⟩ := h.didSelectRowAt hrow
      exact ⟨_, hs', h.fetched, h.rows, h.cells⟩
    · exact ⟨s, rfl, h⟩

/-- **The table is always in step with the results**: no event of any run is out of range, and while
the table is visible its row count is that of the results, and selecting a row passes on the user
whose name the row shows. -/
theorem table_in_step (u : Unicode) (es : List SearchEvent) :
    ∃ s, opened.run u es = some s ∧ (s.tableIsHidden = false → s.rows = s.results.length ∧
      ∀ row < s.rows, ∃ user, s.results[row]? = some user ∧
        s.step u (.didSelectRowAt row) = some { s with completions := s.completions ++ [user] } ∧
        ∀ text, s.cells row = some text → find "name" user = text) := by
  have htotal : ∃ s, Machine.run (step u) opened es = some s ∧ s.InStep :=
    Machine.run_total inStep_opened (fun s e hs => hs.step e) es
  obtain ⟨s, hrun, h⟩ := htotal
  refine ⟨s, hrun, fun hv => ⟨h.rows hv, fun row hlt => ?_⟩⟩
  have hrow : s.hasRow row = true := hasRow_iff.2 ⟨hv, hlt⟩
  obtain ⟨user, hu, hs'⟩ := h.didSelectRowAt hrow
  refine ⟨user, hu, ?_, fun text htext => ?_⟩
  · simp only [NewConversationViewController.step, hrow, ↓reduceIte, hs']
  · obtain ⟨user', hu', hname⟩ := h.cells hv row text htext
    rw [hu] at hu'
    cases hu'
    exact hname

/-! ## The latest search -/

/-- The event is not a failed fetch. -/
def Succeeds : SearchEvent → Prop
  | .getallUser _ (.error _) => False
  | _ => True

/-- Once no fetch is pending, the screen shows the users that match the latest query. -/
def ShowsLatest (u : Unicode) (s : NewConversationViewController) : Prop :=
  s.fetches = [] → ∀ latest ∈ s.submitted.getLast?, s.shown = s.users.filter (nameMatches u latest)

/-- If the last pending fetch completes, it was started by a search for the text of the latest one,
in any letter case. -/
def AnswersLatest (u : Unicode) (s : NewConversationViewController) : SearchEvent → Prop
  | .getallUser i (.ok _) => s.fetches.length = 1 → ∀ query ∈ s.fetches[i]?,
    ∀ latest ∈ s.submitted.getLast?, u.folded query = u.folded latest
  | _ => True

theorem nameMatches_congr {item item' : String} (h : u.folded item = u.folded item') :
    nameMatches u item = nameMatches u item' := by
  funext user
  unfold nameMatches Unicode.hasPrefix
  change u.characters (u.lowercased item) = u.characters (u.lowercased item') at h
  rw [h]

/-- Texts that match each other's names are equal up to case. -/
theorem folded_eq_of_matches {item item' : String}
    (h : nameMatches u item [("name", item')] = true)
    (h' : nameMatches u item' [("name", item)] = true) : u.folded item = u.folded item' := by
  change List.isPrefixOf (u.folded item) (u.folded item') = true at h
  change List.isPrefixOf (u.folded item') (u.folded item) = true at h'
  rw [List.isPrefixOf_iff_prefix] at h h'
  exact h.eq_of_length (Nat.le_antisymm h.length_le h'.length_le)

theorem nameMatches_self (u : Unicode) (item : String) :
    nameMatches u item [("name", item)] = true := by
  change List.isPrefixOf (u.folded item) (u.folded item) = true
  exact List.isPrefixOf_iff_prefix.2 (List.prefix_refl _)

/-- **Step lemma.** -/
theorem ShowsLatest.step (h : ShowsLatest u s) {e : SearchEvent} (he : Succeeds e)
    (hlatest : AnswersLatest u s e) (hs' : NewConversationViewController.step u s e = some s') :
    ShowsLatest u s' := by
  cases change_of_step hs' with
  | ignored | cell | selected => exact h
  | filtered hf =>
    intro _ latest hl
    simp only [filterUser_submitted, List.getLast?_concat, Option.mem_some_iff] at hl
    simp only [shown_filterUser, hf, filterUser_users, hl]
  | fetching =>
    intro hnone
    exact absurd hnone (by simp)
  | fetched hi =>
    intro hnone latest hl
    simp only [filterUser_fetches, filterUser_submitted] at hnone hl
    have hlen : s.fetches.length = 1 := (eraseIdx_eq_nil (by rw [hi]; rfl)).1 hnone
    rw [shown_filterUser rfl, filterUser_users, nameMatches_congr (hlatest hlen _ hi latest hl)]
  | failed => exact he.elim

/-- With users named like both texts, a last fetch for another text than the latest is noticed. -/
theorem answersLatest_of_shows {i : Nat}
    (h : ∀ usersArray, ShowsLatest u (s.getallUser u i (.ok usersArray)))
    (usersArray : List UserEntry) : AnswersLatest u s (.getallUser i (.ok usersArray)) := by
  intro hlen query hi latest hl
  have hshown := h [[("name", query)], [("name", latest)]]
  rw [getallUser_ok hi] at hshown
  have hnone : s.fetches.eraseIdx i = [] := (eraseIdx_eq_nil (by rw [hi]; rfl)).2 hlen
  have hfilter := hshown (by simpa only [filterUser_fetches] using hnone) latest
    (by simpa only [filterUser_submitted] using hl)
  rw [shown_filterUser rfl, filterUser_users] at hfilter
  refine folded_eq_of_matches ?_ ?_
  · have hmem : [("name", latest)] ∈ List.filter (nameMatches u latest)
        [[("name", query)], [("name", latest)]] :=
      List.mem_filter.2 ⟨by simp, nameMatches_self u latest⟩
    rw [← hfilter] at hmem
    exact (List.mem_filter.1 hmem).2
  · have hmem : [("name", query)] ∈ List.filter (nameMatches u query)
        [[("name", query)], [("name", latest)]] :=
      List.mem_filter.2 ⟨by simp, nameMatches_self u query⟩
    rw [hfilter] at hmem
    exact (List.mem_filter.1 hmem).2

/-! ## Runs that differ in the users fetched -/

/-- The same event, up to the users that a fetch answers. -/
inductive SameOrder : SearchEvent → SearchEvent → Prop
  | refl (e : SearchEvent) : SameOrder e e
  | fetched (i : Nat) (usersArray usersArray' : List UserEntry) :
    SameOrder (.getallUser i (.ok usersArray)) (.getallUser i (.ok usersArray'))

/-- Screens with the same searches and fetches. -/
structure SamePending (s t : NewConversationViewController) : Prop where
  inStep : s.InStep
  fetches : s.fetches = t.fetches
  submitted : s.submitted = t.submitted
  hasFetched : s.hasFetched = t.hasFetched

section
variable (u) (s) (text : String) (i : Nat)

theorem searchBarSearchButtonClicked_fetches :
    (s.searchBarSearchButtonClicked u text).fetches =
      if isBlank text ∨ s.hasFetched then s.fetches else s.fetches ++ [text] := by
  unfold searchBarSearchButtonClicked searchUsers
  cases isBlank text
  · cases hf : s.hasFetched <;> simp
  · simp

theorem searchBarSearchButtonClicked_submitted :
    (s.searchBarSearchButtonClicked u text).submitted =
      if isBlank text then s.submitted else s.submitted ++ [text] := by
  unfold searchBarSearchButtonClicked searchUsers
  cases isBlank text
  · cases s.hasFetched <;> simp
  · simp

theorem searchBarSearchButtonClicked_hasFetched :
    (s.searchBarSearchButtonClicked u text).hasFetched = s.hasFetched := by
  unfold searchBarSearchButtonClicked searchUsers
  cases isBlank text
  · cases s.hasFetched <;> simp
  · simp

theorem getallUser_fetches (result : Except DatabaseError (List UserEntry)) :
    (s.getallUser u i result).fetches = s.fetches.eraseIdx i := by
  unfold getallUser
  cases hi : s.fetches[i]? with
  | none => exact (List.eraseIdx_of_length_le (List.getElem?_eq_none_iff.1 hi)).symm
  | some query => cases result <;> simp

theorem getallUser_submitted (result : Except DatabaseError (List UserEntry)) :
    (s.getallUser u i result).submitted = s.submitted := by
  unfold getallUser
  cases s.fetches[i]? with
  | none => rfl
  | some query => cases result <;> simp

theorem getallUser_hasFetched (result : Except DatabaseError (List UserEntry)) :
    (s.getallUser u i result).hasFetched =
      (s.hasFetched || (s.fetches[i]?.isSome && result.isOk)) := by
  unfold getallUser
  cases s.fetches[i]? with
  | none => simp
  | some query => cases result <;> simp [Except.isOk, Except.toBool]

end

theorem SamePending.getallUser {s t : NewConversationViewController} (h : SamePending s t) (i : Nat)
    {result result' : Except DatabaseError (List UserEntry)} (hok : result.isOk = result'.isOk) :
    SamePending (s.getallUser u i result) (t.getallUser u i result') where
  inStep := h.inStep.getallUser i result
  fetches := by simp only [getallUser_fetches, h.fetches]
  submitted := by simp only [getallUser_submitted, h.submitted]
  hasFetched := by simp only [getallUser_hasFetched, h.fetches, h.hasFetched, hok]

/-- **Step lemma.** -/
theorem SamePending.step {s t t' : NewConversationViewController} (h : SamePending s t)
    {e f : SearchEvent} (hef : SameOrder e f)
    (ht' : NewConversationViewController.step u t f = some t') :
    ∃ s', NewConversationViewController.step u s e = some s' ∧ SamePending s' t' := by
  obtain ⟨s', hs', hin⟩ := h.inStep.step (u := u) e
  refine ⟨s', hs', ?_⟩
  cases hef with
  | refl =>
    cases e with
    | searchBarSearchButtonClicked text =>
      cases hs'
      cases ht'
      refine ⟨hin, ?_, ?_, ?_⟩
      · simp only [searchBarSearchButtonClicked_fetches, h.fetches, h.hasFetched]
      · simp only [searchBarSearchButtonClicked_submitted, h.submitted]
      · simp only [searchBarSearchButtonClicked_hasFetched, h.hasFetched]
    | getallUser i result =>
      cases hs'
      cases ht'
      exact h.getallUser i rfl
    | cellForRowAt row =>
      obtain ⟨cells, rfl⟩ := step_cellForRowAt hs'
      obtain ⟨cells', rfl⟩ := step_cellForRowAt ht'
      exact ⟨hin, h.fetches, h.submitted, h.hasFetched⟩
    | didSelectRowAt row =>
      obtain ⟨completions, rfl⟩ := step_didSelectRowAt hs'
      obtain ⟨completions', rfl⟩ := step_didSelectRowAt ht'
      exact ⟨hin, h.fetches, h.submitted, h.hasFetched⟩
  | fetched i usersArray usersArray' =>
    cases hs'
    cases ht'
    exact h.getallUser i rfl

theorem SameOrder.succeeds {es fs : List SearchEvent} (h : List.Forall₂ SameOrder es fs)
    (hok : ∀ e ∈ es, Succeeds e) : ∀ f ∈ fs, Succeeds f := by
  induction h with
  | nil => exact hok
  | cons hef _ ih =>
    rw [List.forall_mem_cons] at hok ⊢
    refine ⟨?_, ih hok.2⟩
    cases hef with
    | refl => exact hok.1
    | fetched => trivial

theorem SamePending.answersLatest {s t : NewConversationViewController} (h : SamePending s t)
    {e f : SearchEvent} (hef : SameOrder e f) (he : AnswersLatest u s e) : AnswersLatest u t f := by
  cases hef with
  | refl =>
    cases e with
    | getallUser i result =>
      cases result with
      | ok usersArray => simpa only [AnswersLatest, h.fetches, h.submitted] using he
      | error e => trivial
    | searchBarSearchButtonClicked | cellForRowAt | didSelectRowAt => trivial
  | fetched i usersArray usersArray' =>
    simpa only [AnswersLatest, h.fetches, h.submitted] using he

/-- If the latest search wins whatever the fetches answer, the last fetch is always one for it. -/
theorem meets_of_shows {es : List SearchEvent} (h : ∀ es', List.Forall₂ SameOrder es es' →
    Machine.Always (step u) (ShowsLatest u) s es') :
    Machine.Meets (step u) (AnswersLatest u) s es := by
  induction es generalizing s with
  | nil => trivial
  | cons e es ih =>
    have hrefl : List.Forall₂ SameOrder es es := List.forall₂_same.2 fun e _ => .refl e
    refine ⟨?_, fun s' hs' => ih fun es' hes' => (h (e :: es') (.cons (.refl e) hes')).2 s' hs'⟩
    cases e with
    | getallUser i result =>
      cases result with
      | ok usersArray =>
        refine answersLatest_of_shows (fun usersArray' => ?_) usersArray
        exact ((h _ (.cons (.fetched i usersArray usersArray') hrefl)).2 _ rfl).head
      | error e => trivial
    | searchBarSearchButtonClicked | cellForRowAt | didSelectRowAt => trivial

/-- **The latest search wins exactly when the last pending fetch to complete is always for its
text**: for all successful fetches, in any order and whatever they answer, once none is pending the
screen shows the users that match the latest query. -/
theorem latest_search_wins_iff (u : Unicode) {es : List SearchEvent}
    (hok : ∀ e ∈ es, Succeeds e) :
    (∀ es', List.Forall₂ SameOrder es es' →
      Machine.Always (step u) (ShowsLatest u) opened es') ↔
    Machine.Meets (step u) (AnswersLatest u) opened es := by
  refine ⟨meets_of_shows, fun h es' hes' => ?_⟩
  have hpending : SamePending opened opened := ⟨inStep_opened, rfl, rfl, rfl⟩
  have hmeets : Machine.Meets (step u) (AnswersLatest u) opened es' :=
    Machine.meets_related hpending hes' (fun s t e f hR hQ => hR.answersLatest hQ)
      (fun s t e f t' hR hQ => hR.step hQ) h
  exact Machine.always_of_meets (fun _ latest hl => by cases hl)
    (fun e he s s' hs hC hs' => hs.step (SameOrder.succeeds hes' hok e he) hC hs') hmeets

/-- An entry of the directory. -/
def adaEntry : UserEntry := [("name", "Ada Said"), ("safeEmail", "ada-mail-com")]

/-- Another one. -/
def omarEntry : UserEntry := [("name", "Omar Adel"), ("safeEmail", "omar-mail-com")]

/-- One search, answered. -/
def oneSearch : List SearchEvent :=
  [.searchBarSearchButtonClicked "ada", .getallUser 0 (.ok [adaEntry, omarEntry])]

theorem oneSearch_answersLatest :
    Machine.Meets (step asciiUnicode) (AnswersLatest asciiUnicode) opened oneSearch := by
  refine Machine.meets_cons trivial rfl (Machine.meets_cons ?_ rfl trivial)
  intro _ query hquery latest hlatest
  have hblank : isBlank "ada" = false := by decide +kernel
  simp [searchBarSearchButtonClicked_fetches, searchBarSearchButtonClicked_submitted, hblank,
    opened] at hquery hlatest
  rw [← hquery, ← hlatest]

theorem latest_search_wins_once :
    Machine.Meets (step asciiUnicode) (AnswersLatest asciiUnicode) opened oneSearch ∧
      ∀ es', List.Forall₂ SameOrder oneSearch es' →
        Machine.Always (step asciiUnicode) (ShowsLatest asciiUnicode) opened es' := by
  have hok : ∀ e ∈ oneSearch, Succeeds e := by simp [oneSearch, Succeeds]
  exact ⟨oneSearch_answersLatest,
    (latest_search_wins_iff asciiUnicode hok).2 oneSearch_answersLatest⟩

/-- Two searches before the first fetch completes, and one between the completions, which come in
the order of the fetches. -/
def threeSearches : List SearchEvent :=
  [.searchBarSearchButtonClicked "ada", .searchBarSearchButtonClicked "omar",
    .getallUser 0 (.ok [adaEntry, omarEntry]), .searchBarSearchButtonClicked "zain",
    .getallUser 0 (.ok [adaEntry, omarEntry])]

/-- Zain is searched for last, and Omar is shown. -/
theorem older_search_shown : (∀ e ∈ threeSearches, Succeeds e) ∧
    ∃ s, opened.run asciiUnicode threeSearches = some s ∧ s.fetches = [] ∧
      s.submitted.getLast? = some "zain" ∧ s.shown = [omarEntry] ∧
      s.users.filter (nameMatches asciiUnicode "zain") = [] := by
  refine ⟨by simp [threeSearches, Succeeds], _, rfl, ?_⟩
  decide +kernel

end NewConversationViewController

end IChat
