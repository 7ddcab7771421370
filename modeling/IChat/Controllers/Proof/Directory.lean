import IChat.Controllers.Proof.Search
import IChat.Manager.Proof.Refinement

/-!
# Registered users are found

From the registrations through the directory and the search to the chat: the first search for the
start of a registered user's name, in any letter case, lists that user, and choosing the row opens a
chat with the user's safe email (`registered_user_found`). The key `users` is the directory's own:
an account registered there replaces the directory, which is harmless only for the first one.
-/

namespace IChat

open Async Firebase SortedMap

/-! ## The directory -/

/-- The directory after registrations in turn that all succeeded. -/
def DirectoryOf (db : Database) (users : List ChatAppUser) : Prop :=
  db.value ["users"] = stored (.ofStringDictArray (users.map ChatAppUser.newUser))

/-- **Step lemma.** -/
theorem DirectoryOf.register {db db' : Database} {users : List ChatAppUser}
    (h : DirectoryOf db users) {user : ChatAppUser} (hlegal : isValidKey user.safeEmail = true)
    (hkey : users ≠ [] → user.safeEmail ≠ "users") {o : List Bool}
    (hrun : exec (DatabaseManager.insertUser user) db o = (db', .ret true)) :
    DirectoryOf db' (users ++ [user]) := by
  rcases exec_insertUser_cases hrun with ⟨-, hr⟩ | ⟨p, hp, ⟨-, hr⟩ | ⟨rfl, -⟩⟩
  · exact absurd rfl hr
  · exact absurd rfl hr
  · rw [child_key hlegal] at hp
    cases hp
    rw [DirectoryOf, Database.value_setValue_self]
    by_cases hne : user.safeEmail = "users"
    · -- the account's node has replaced the directory, which had no entries
      have hnil : users = [] := by
        by_contra hu
        exact hkey hu hne
      rw [hne, Database.value_setValue_self, canonical_node, hnil]
      rfl
    · rw [Database.value_setValue_apart _ _ (KeyTree.apart_singleton.2 hne), h, appendUser_users]

/-- **Run lemma.** -/
theorem directoryOf_run {hist : List (Done ChatAppUser Path Value Bool)} {db : Database}
    (hrun : InTurn DatabaseManager.insertUser .empty hist db)
    (htrue : ∀ d ∈ hist, d.outcome = .ret true)
    (hlegal : ∀ d ∈ hist, isValidKey d.arg.safeEmail = true)
    (hkey : ∀ d ∈ hist.tail, d.arg.safeEmail ≠ "users") : DirectoryOf db (hist.map Done.arg) := by
  refine hrun.inv (P := fun ds db => DirectoryOf db (ds.map Done.arg))
    (Database.value_empty ["users"]) fun ds d rest s s' he h hstep => ?_
  subst he
  rw [htrue d (by simp)] at hstep
  rw [List.map_append, List.map_singleton]
  refine h.register (hlegal d (by simp)) (fun hne => hkey d ?_) hstep
  cases ds with
  | nil => exact absurd rfl hne
  | cons => simp

theorem DirectoryOf.getallUser {db : Database} {users : List ChatAppUser} (h : DirectoryOf db users)
    (hne : users ≠ []) : exec DatabaseManager.getallUser db [] =
      (db, .ret (.ok (users.map ChatAppUser.newUser))) := by
  have hsome : (db.value ["users"]).asStringDictArray = some (users.map ChatAppUser.newUser) := by
    rw [h, asStringDictArray_users, if_neg (by simpa using hne)]
  simp only [DatabaseManager.getallUser, atChild, child_users, observeSingleEvent, exec, mem_get,
    List.headD_nil, ↓reduceIte, hsome]

/-! ## The first search -/

open NewConversationViewController in
theorem first_search (u : Unicode) {text : String} (htext : isBlank text = false)
    (usersArray : List UserEntry) :
    ∃ s, opened.run u [.searchBarSearchButtonClicked text, .getallUser 0 (.ok usersArray)] =
        some s ∧
      s.InStep ∧ s.results = usersArray.filter (nameMatches u text) ∧ s.shown = s.results := by
  have hfetches : (opened.searchBarSearchButtonClicked u text).fetches[0]? = some text := by
    rw [searchBarSearchButtonClicked_fetches, if_neg (by simp [htext, opened])]
    rfl
  refine ⟨_, rfl, ?_⟩
  rw [getallUser_ok hfetches]
  refine ⟨inStep_filterUser rfl text, filterUser_results rfl text, ?_⟩
  rw [filterUser_results rfl, shown_filterUser rfl]

/-! ## Names and prefixes -/

theorem nameMatches_newUser (u : Unicode) (text : String) (user : ChatAppUser) :
    nameMatches u text user.newUser = true ↔
      u.folded text <+: u.folded (user.firstName ++ " " ++ user.lastName) :=
  List.isPrefixOf_iff_prefix

/-- A prefix in another letter case is a prefix of the lower-cased text. -/
theorem folded_start {u : Unicode} {lower : u.Character → u.Character}
    (hlower : ∀ s, u.folded s = (u.characters s).map lower) {name text : String}
    {start : List u.Character} (hstart : start <+: u.characters name)
    (hcase : (u.characters text).map lower = start.map lower) :
    u.folded text <+: u.folded name := by
  rw [hlower, hlower, hcase]
  exact hstart.map lower

/-- Different safe emails make different entries. -/
theorem nodup_newUser {users : List ChatAppUser}
    (h : (users.map ChatAppUser.safeEmail).Nodup) : (users.map ChatAppUser.newUser).Nodup := by
  refine List.Nodup.of_map (fun entry => (find "safeEmail" entry).getD "") ?_
  rw [List.map_map]
  exact h

/-! ## From the registration to the chat -/

/-- What a search among the registered users has found for one of them. -/
structure Finds (u : Unicode) (users : List ChatAppUser) (user : ChatAppUser) (text : String)
    (s : NewConversationViewController) : Prop where
  found : user.newUser ∈ s.results
  visible : s.shown = s.results
  /-- Every name found starts with the text, up to case. -/
  starts : ∀ entry ∈ s.results, ∃ name, find "name" entry = some name ∧
    u.folded text <+: u.folded name
  order : s.results.Sublist (users.map ChatAppUser.newUser)
  once : ∀ user' ∈ users, u.folded text <+: u.folded (user'.firstName ++ " " ++ user'.lastName) →
    s.results.count user'.newUser = 1
  /-- Choosing the row passes the entry on, and it opens a chat with the user. -/
  reached : ∀ row, s.results[row]? = some user.newUser →
    s.step u (.didSelectRowAt row) =
        some { s with completions := s.completions ++ [user.newUser] } ∧
      ∃ chat, composeChat user.newUser = some chat ∧ chat.otherUserEmail = user.safeEmail

/-- What the results of a search are, they find. -/
theorem finds_filter {u : Unicode} {users : List ChatAppUser} {user : ChatAppUser} {text : String}
    {s : NewConversationViewController} (huser : user ∈ users)
    (hsafe : (users.map ChatAppUser.safeEmail).Nodup)
    (hmatch : u.folded text <+: u.folded (user.firstName ++ " " ++ user.lastName))
    (hstep : s.InStep)
    (hresults : s.results = (users.map ChatAppUser.newUser).filter (nameMatches u text))
    (hshown : s.shown = s.results) : Finds u users user text s where
  found := by
    rw [hresults, List.mem_filter, nameMatches_newUser]
    exact ⟨List.mem_map_of_mem huser, hmatch⟩
  visible := hshown
  starts entry hentry := by
    rw [hresults, List.mem_filter] at hentry
    obtain ⟨hmem, hmatch⟩ := hentry
    obtain ⟨user', -, rfl⟩ := List.mem_map.1 hmem
    exact ⟨_, rfl, (nameMatches_newUser u text user').1 hmatch⟩
  order := by
    rw [hresults]
    exact List.filter_sublist
  once user' huser' hmatch' := by
    rw [hresults, List.count_filter ((nameMatches_newUser u text user').2 hmatch')]
    exact List.count_eq_one_of_mem (nodup_newUser hsafe) (List.mem_map_of_mem huser')
  reached row hrow := by
    refine ⟨?_, _, composeChat_newUser user, rfl⟩
    have hvisible : s.tableIsHidden = false := by
      by_contra hhidden
      rw [NewConversationViewController.shown, if_pos (by simpa using hhidden)] at hshown
      rw [← hshown] at hrow
      cases hrow
    have hlt : row < s.rows := by
      rw [hstep.rows hvisible]
      exact (List.getElem?_eq_some_iff.1 hrow).1
    have hhas : s.hasRow row = true := NewConversationViewController.hasRow_iff.2 ⟨hvisible, hlt⟩
    obtain ⟨user', huser', hselect⟩ := hstep.didSelectRowAt hhas
    rw [hrow] at huser'
    cases huser'
    simp only [NewConversationViewController.step, hhas, ↓reduceIte, hselect]

open NewConversationViewController in
/-- **Every registered user is found and reached.** After registrations in turn that all succeeded,
the first search for a start of a user's name in any letter case finds exactly the users whose names
start with it, in the order of the directory, and leads to a chat with the user. -/
theorem registered_user_found {u : Unicode} {lower : u.Character → u.Character}
    (hlower : ∀ s, u.folded s = (u.characters s).map lower)
    {hist : List (Done ChatAppUser Path Value Bool)} {db : Database}
    (hrun : InTurn DatabaseManager.insertUser .empty hist db)
    (htrue : ∀ d ∈ hist, d.outcome = .ret true)
    (hsafe : (hist.map fun d => d.arg.safeEmail).Nodup)
    (hlegal : ∀ d ∈ hist, isValidKey d.arg.safeEmail = true)
    (hkey : ∀ d ∈ hist.tail, d.arg.safeEmail ≠ "users")
    {user : ChatAppUser} (huser : user ∈ hist.map Done.arg) {start : List u.Character}
    (hstart : start <+: u.characters (user.firstName ++ " " ++ user.lastName)) {text : String}
    (hcase : (u.characters text).map lower = start.map lower) (htext : isBlank text = false) :
    ∃ answer s, exec DatabaseManager.getallUser db [] = (db, .ret answer) ∧
      opened.run u [.searchBarSearchButtonClicked text, .getallUser 0 answer] = some s ∧
      Finds u (hist.map Done.arg) user text s := by
  have hdirectory := directoryOf_run hrun htrue hlegal hkey
  obtain ⟨s, hs, hstep, hresults, hshown⟩ :=
    first_search u htext ((hist.map Done.arg).map ChatAppUser.newUser)
  refine ⟨_, s, hdirectory.getallUser (List.ne_nil_of_mem huser), hs, ?_⟩
  refine finds_filter huser ?_ (folded_start hlower hstart hcase) hstep hresults hshown
  rw [List.map_map]
  exact hsafe

/-- The data after registrations in turn. -/
def dataAfter (users : List ChatAppUser) : Database :=
  users.foldl (fun db user => (exec (DatabaseManager.insertUser user) db []).1) .empty

/-- Two registrations. -/
def twoRegistrations : List (Done ChatAppUser Path Value Bool) :=
  [⟨twoUsers true, [], .ret true⟩, ⟨twoUsers false, [], .ret true⟩]

theorem twoRegistrations_inTurn : InTurn DatabaseManager.insertUser .empty twoRegistrations
    (dataAfter [twoUsers true, twoUsers false]) :=
  .cons (Prod.ext rfl (Prog.answer_eq_some.1 (by decide +kernel)))
    (.cons (Prod.ext rfl (Prog.answer_eq_some.1 (by decide +kernel))) (.nil _))

theorem folded_ascii (s : String) :
    asciiUnicode.folded s = (asciiUnicode.characters s).map Char.toLower := by
  change (String.ofList (s.toList.map Char.toLower)).toList = _
  rw [String.toList_ofList]
  rfl

/-- Omar is found by "oMAR a". -/
theorem registered_user_found_omar :
    ∃ answer s, exec DatabaseManager.getallUser (dataAfter [twoUsers true, twoUsers false]) [] =
        (dataAfter [twoUsers true, twoUsers false], .ret answer) ∧
      NewConversationViewController.opened.run asciiUnicode
        [.searchBarSearchButtonClicked "oMAR a", .getallUser 0 answer] = some s ∧
      Finds asciiUnicode (twoRegistrations.map Done.arg) (twoUsers false) "oMAR a" s :=
  registered_user_found (u := asciiUnicode) folded_ascii twoRegistrations_inTurn
    (by simp [twoRegistrations]) (by decide +kernel) (by decide +kernel) (by decide +kernel)
    (List.mem_map_of_mem (.tail _ (.head _)))
    (show "Omar A".toList <+: asciiUnicode.characters ("Omar" ++ " " ++ "Adel") from
      List.isPrefixOf_iff_prefix.1 (by decide +kernel)) (by decide +kernel) (by decide +kernel)

/-- The second of these accounts is registered at the key of the directory. -/
def directoryReplaced : List (Done ChatAppUser Path Value Bool) :=
  [⟨twoUsers true, [], .ret true⟩, ⟨⟨"Zain", "Ali", "users"⟩, [], .ret true⟩]

/-- Both registrations succeed, at different legal keys, and Ada is not found. -/
theorem registered_user_missing :
    InTurn DatabaseManager.insertUser .empty directoryReplaced
        (dataAfter (directoryReplaced.map Done.arg)) ∧
      (∀ d ∈ directoryReplaced, d.outcome = .ret true) ∧
      (directoryReplaced.map fun d => d.arg.safeEmail).Nodup ∧
      (∀ d ∈ directoryReplaced, isValidKey d.arg.safeEmail = true) ∧
      ∃ answer s, exec DatabaseManager.getallUser (dataAfter (directoryReplaced.map Done.arg)) [] =
          (dataAfter (directoryReplaced.map Done.arg), .ret answer) ∧
        NewConversationViewController.opened.run asciiUnicode
          [.searchBarSearchButtonClicked "Ada Said", .getallUser 0 answer] = some s ∧
        s.results = [] := by
  refine ⟨?_, by simp [directoryReplaced], by decide +kernel, by decide +kernel,
    .ok [ChatAppUser.newUser ⟨"Zain", "Ali", "users"⟩], _, ?_, rfl, by decide +kernel⟩
  · exact .cons (Prod.ext rfl (Prog.answer_eq_some.1 (by decide +kernel)))
      (.cons (Prod.ext rfl (Prog.answer_eq_some.1 (by decide +kernel))) (.nil _))
  · exact Prod.ext rfl (Prog.answer_eq_some.1 (by decide +kernel))

end IChat
