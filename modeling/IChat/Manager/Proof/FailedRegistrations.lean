import IChat.Manager.Proof.Refinement

/-!
# Registrations that fail

`insertUser` writes the user's node and then the directory, and nothing undoes the first write. Over
every history of registrations that run one after the other, with reads that may be cancelled and
writes that may fail, the nodes and the directory correspond, except for the calls that ended after
the first write.
-/

namespace IChat

open Async Firebase SortedMap

/-- A call of `insertUser` that ran alone. -/
abbrev Registration := Done ChatAppUser Path Value Bool

/-- The call wrote the user's node and did not complete with `true`. -/
def Registration.HalfDone (d : Registration) : Prop :=
  d.fate.headD true = true ∧ d.outcome ≠ .ret true

def Registration.completed (d : Registration) : Bool := d.outcome.answer == some true

theorem Registration.completed_iff {d : Registration} :
    d.completed = true ↔ d.outcome = .ret true := by
  rw [completed, beq_iff_eq, Prog.answer_eq_some]

/-- The directory has exactly one entry with the user's safe email, with the user's full name. -/
def InDirectory (db : Database) (user : ChatAppUser) : Prop :=
  (directory db).filter (entrySafeEmail · = some user.safeEmail) = [.ofStringDict user.newUser]

/-- The directory has no entry with the safe email. -/
def NotInDirectory (db : Database) (key : String) : Prop :=
  (directory db).filter (entrySafeEmail · = some key) = []

theorem entries_users (users : List ChatAppUser) :
    entries (stored (.ofStringDictArray (users.map ChatAppUser.newUser))) =
      users.map fun user => .ofStringDict user.newUser := by
  cases users with
  | nil => rfl
  | cons user users =>
    rw [stored_ofStringDictArray (fun d hd => ?_) (by simp), entries_ofStringDictArray,
      List.map_map]
    · rfl
    · obtain ⟨u, -, rfl⟩ := List.mem_map.1 hd
      exact canonical_newUser u

/-- After the calls `ds`: the directory has the users whose calls completed with `true`, and the
nodes are those whose write succeeded. -/
structure RegistrationInv (ds : List Registration) (db : Database) : Prop where
  directory : db.value ["users"] = stored (.ofStringDictArray
    (((ds.filter Registration.completed).map Done.arg).map ChatAppUser.newUser))
  node : ∀ d ∈ ds, db.value [d.arg.safeEmail] =
    if d.fate.headD true then .ofStringDict d.arg.node else .null
  other : ∀ key, key ≠ "users" → (∀ d ∈ ds, d.arg.safeEmail ≠ key) → db.value [key] = .null
  started : ∀ d ∈ ds, d.completed = true → d.fate.headD true = true

/-- What one call leaves, given what it does to the directory and to the user's node. -/
theorem RegistrationInv.extend {ds : List Registration} {db db' : Database}
    (h : RegistrationInv ds db) {d : Registration}
    (hnew : ∀ e ∈ ds, e.arg.safeEmail ≠ d.arg.safeEmail)
    (hother : ∀ key, key ≠ "users" → key ≠ d.arg.safeEmail → db'.value [key] = db.value [key])
    (hdir : db'.value ["users"] = if d.completed then
      stored (appendUser d.arg (db.value ["users"])) else db.value ["users"])
    (hnode : db'.value [d.arg.safeEmail] =
      if d.fate.headD true then .ofStringDict d.arg.node else .null)
    (hstart : d.completed = true → d.fate.headD true = true)
    (hds : ∀ e ∈ ds, e.arg.safeEmail ≠ "users") : RegistrationInv (ds ++ [d]) db' := by
  refine ⟨?_, fun e he => ?_, fun key hkey hall => ?_, fun e he => ?_⟩
  · rw [hdir, List.filter_append, h.directory]
    cases hc : d.completed with
    | true =>
      rw [if_pos rfl, appendUser_users]
      simp only [List.filter_cons, hc, ↓reduceIte, List.filter_nil, List.map_append, List.map_cons,
        List.map_nil]
    | false =>
      simp only [List.filter_cons, hc, Bool.false_eq_true, ↓reduceIte, List.filter_nil,
        List.append_nil]
  · rcases List.mem_append.1 he with he | he
    · rw [hother _ (hds e he) (hnew e he)]
      exact h.node e he
    · rw [List.mem_singleton.1 he]; exact hnode
  · rw [hother key hkey fun he => hall d (by simp) he.symm]
    exact h.other key hkey fun e he => hall e (List.mem_append_left _ he)
  · rcases List.mem_append.1 he with he | he
    · exact h.started e he
    · rw [List.mem_singleton.1 he]; exact hstart

/-- **Step lemma**: one call, with any failures. -/
theorem RegistrationInv.step {ds : List Registration} {db db' : Database}
    (h : RegistrationInv ds db) {d : Registration} (hlegal : isValidKey d.arg.safeEmail = true)
    (hne : d.arg.safeEmail ≠ "users") (hnew : ∀ e ∈ ds, e.arg.safeEmail ≠ d.arg.safeEmail)
    (hds : ∀ e ∈ ds, e.arg.safeEmail ≠ "users")
    (hrun : exec (DatabaseManager.insertUser d.arg) db d.fate = (db', d.outcome)) :
    RegistrationInv (ds ++ [d]) db' := by
  rw [exec_insertUser (child_key hlegal) (KeyTree.apart_singleton.2 hne)] at hrun
  have hset : ∀ key, key ≠ d.arg.safeEmail →
      (db.setValue [d.arg.safeEmail] (.ofStringDict d.arg.node)).value [key] = db.value [key] :=
    fun key hk => value_setValue_ne (Ne.symm hk) db _
  have hwritten : (db.setValue [d.arg.safeEmail] (.ofStringDict d.arg.node)).value
      [d.arg.safeEmail] = .ofStringDict d.arg.node := by
    rw [Database.value_setValue_self, canonical_node]
  have hcompleted : ∀ {r}, d.outcome = r → r.answer ≠ some true → d.completed = false := by
    rintro r rfl hr
    exact beq_eq_false_iff_ne.2 hr
  cases h0 : d.fate.headD true with
  | false =>
    rw [h0] at hrun
    obtain ⟨rfl, hr⟩ := Prod.mk.inj hrun
    have hc := hcompleted hr.symm (by decide)
    refine h.extend hnew (fun _ _ _ => rfl) ?_ ?_ (fun h => by rw [hc] at h; cases h) hds
    · rw [hc]; rfl
    · rw [h0]; exact h.other _ hne hnew
  | true =>
    rw [h0, if_pos rfl] at hrun
    -- the calls that end after the first write leave only the node
    have hhalf : db' = db.setValue [d.arg.safeEmail] (.ofStringDict d.arg.node) →
        d.completed = false → RegistrationInv (ds ++ [d]) db' := by
      rintro rfl hc
      refine h.extend hnew (fun key _ hk => hset key hk) ?_ ?_ (fun _ => h0) hds
      · rw [hc, hset _ (Ne.symm hne)]; rfl
      · rw [h0]; exact hwritten
    cases h1 : d.fate.tail.headD true with
    | false =>
      rw [h1] at hrun
      obtain ⟨rfl, hr⟩ := Prod.mk.inj hrun
      exact hhalf rfl (hcompleted hr.symm (by simp [Prog.answer]))
    | true =>
      rw [h1, if_pos rfl] at hrun
      cases h2 : d.fate.tail.tail.headD true with
      | false =>
        rw [h2] at hrun
        obtain ⟨rfl, hr⟩ := Prod.mk.inj hrun
        exact hhalf rfl (hcompleted hr.symm (by simp [Prog.answer]))
      | true =>
        rw [h2, if_pos rfl] at hrun
        obtain ⟨rfl, hr⟩ := Prod.mk.inj hrun
        refine h.extend hnew (fun key hku hk => ?_) ?_ ?_ (fun _ => h0) hds
        · rw [registeredData, value_setValue_ne (Ne.symm hku), hset key hk]
        · rw [Registration.completed_iff.2 hr.symm, if_pos rfl, registeredData,
            Database.value_setValue_self]
        · rw [h0, registeredData, value_setValue_ne (Ne.symm hne)]; exact hwritten

/-- Of the entries of the completed calls, those with the safe email of one call. -/
theorem filter_completed {hist : List Registration}
    (hdiff : hist.Pairwise fun d e => d.arg.safeEmail ≠ e.arg.safeEmail) {d : Registration}
    (hd : d ∈ hist) :
    (((hist.filter Registration.completed).map Done.arg).map
        fun user => Value.ofStringDict user.newUser).filter
          (entrySafeEmail · = some d.arg.safeEmail) =
      if d.completed then [.ofStringDict d.arg.newUser] else [] := by
  have hnone : ∀ es : List Registration, (∀ e ∈ es, e.arg.safeEmail ≠ d.arg.safeEmail) →
      (((es.filter Registration.completed).map Done.arg).map
        fun user => Value.ofStringDict user.newUser).filter
          (entrySafeEmail · = some d.arg.safeEmail) = [] := fun es hes => by
    refine List.filter_eq_nil_iff.2 fun x hx => ?_
    obtain ⟨u, hu, rfl⟩ := List.mem_map.1 hx
    obtain ⟨e, he, rfl⟩ := List.mem_map.1 hu
    simpa [entrySafeEmail_newUser] using hes e (List.mem_filter.1 he).1
  induction hist with
  | nil => cases hd
  | cons e hist ih =>
    obtain ⟨he, hhist⟩ := List.pairwise_cons.1 hdiff
    rcases List.mem_cons.1 hd with rfl | hd
    · cases hc : d.completed with
      | true =>
        simp only [List.filter_cons, hc, ↓reduceIte, List.map_cons, entrySafeEmail_newUser,
          decide_true, hnone hist fun e' he' => Ne.symm (he e' he')]
      | false =>
        simp only [List.filter_cons, hc, Bool.false_eq_true, ↓reduceIte]
        exact hnone hist fun e' he' => Ne.symm (he e' he')
    · have hne : ¬ e.arg.safeEmail = d.arg.safeEmail := he d hd
      rw [← ih hhist hd]
      cases hc : e.completed with
      | true =>
        simp only [List.filter_cons, hc, ↓reduceIte, List.map_cons, entrySafeEmail_newUser,
          Option.some.injEq, hne, decide_false, Bool.false_eq_true]
      | false => simp only [List.filter_cons, hc, Bool.false_eq_true, ↓reduceIte]

theorem RegistrationInv.run {hist : List Registration} {db : Database}
    (hrun : InTurn DatabaseManager.insertUser .empty hist db)
    (hlegal : ∀ d ∈ hist, isValidKey d.arg.safeEmail = true ∧ d.arg.safeEmail ≠ "users")
    (hdiff : hist.Pairwise fun d e => d.arg.safeEmail ≠ e.arg.safeEmail) :
    RegistrationInv hist db := by
  refine hrun.inv (P := RegistrationInv) ⟨Database.value_empty ["users"], nofun,
    fun key _ _ => Database.value_empty [key], nofun⟩ fun ds d rest s s' he h hstep => ?_
  subst he
  obtain ⟨-, -, hcross⟩ := List.pairwise_append.1 hdiff
  obtain ⟨hk, hne⟩ := hlegal d (by simp)
  exact h.step hk hne (fun e hmem => hcross e hmem d (.head _))
    (fun e hmem => (hlegal e (by simp [hmem])).2) hstep

/-- **Nodes and directory correspond, except for calls that are half done.** Over every history of
registrations with any failures, a user's node exists exactly when the directory has exactly one
entry for it; after a call that wrote the node and did not complete with `true`, the node exists
without an entry. Such a call has changed the node only, any other that did not complete with `true`
nothing. -/
theorem registrations_correspond {hist : List Registration} {db : Database}
    (hrun : InTurn DatabaseManager.insertUser .empty hist db)
    (hlegal : ∀ d ∈ hist, isValidKey d.arg.safeEmail = true ∧ d.arg.safeEmail ≠ "users")
    (hdiff : hist.Pairwise fun d e => d.arg.safeEmail ≠ e.arg.safeEmail) :
    (∀ d ∈ hist, ¬ d.HalfDone →
        (db.value [d.arg.safeEmail] = .ofStringDict d.arg.node ↔ InDirectory db d.arg)) ∧
      (∀ d ∈ hist, d.HalfDone → db.value [d.arg.safeEmail] = .ofStringDict d.arg.node ∧
        NotInDirectory db d.arg.safeEmail) ∧
      (∀ key, key ≠ "users" → (∀ d ∈ hist, d.arg.safeEmail ≠ key) →
        db.value [key] = .null ∧ NotInDirectory db key) ∧
      ∀ d ∈ hist, ∀ s s' : Database, exec (DatabaseManager.insertUser d.arg) s d.fate = (s', d.outcome) →
        d.outcome ≠ .ret true →
          s' = if d.fate.headD true then s.setValue [d.arg.safeEmail] (.ofStringDict d.arg.node)
            else s := by
  have h := RegistrationInv.run hrun hlegal hdiff
  have hdir : directory db = ((hist.filter Registration.completed).map Done.arg).map
      fun user => Value.ofStringDict user.newUser := by
    rw [directory, h.directory, entries_users]
  refine ⟨fun d hd hhalf => ?_, fun d hd hhalf => ?_, fun key hkey hall => ?_,
    fun d hd s s' hstep hfail => ?_⟩
  · rw [h.node d hd, InDirectory, hdir, filter_completed hdiff hd]
    cases h0 : d.fate.headD true with
    | true =>
      have hc : d.completed = true :=
        Registration.completed_iff.2 (Classical.not_not.1 fun hr => hhalf ⟨h0, hr⟩)
      simp [hc]
    | false =>
      have hc : d.completed = false :=
        Bool.eq_false_iff.2 fun hc => by rw [h.started d hd hc] at h0; cases h0
      simp [hc, Value.ofStringDict]
  · have hc : d.completed = false :=
      Bool.eq_false_iff.2 fun hc => hhalf.2 (Registration.completed_iff.1 hc)
    rw [h.node d hd, NotInDirectory, hdir, filter_completed hdiff hd, hhalf.1, hc]
    exact ⟨rfl, rfl⟩
  · refine ⟨h.other key hkey hall, ?_⟩
    rw [NotInDirectory, hdir]
    refine List.filter_eq_nil_iff.2 fun x hx => ?_
    obtain ⟨u, hu, rfl⟩ := List.mem_map.1 hx
    obtain ⟨e, he, rfl⟩ := List.mem_map.1 hu
    simpa [entrySafeEmail_newUser] using hall e (List.mem_filter.1 he).1
  · obtain ⟨hk, hne⟩ := hlegal d hd
    rw [exec_insertUser (child_key hk) (KeyTree.apart_singleton.2 hne)] at hstep
    split at hstep
    · rename_i h0
      rw [if_pos h0]
      repeat split at hstep
      all_goals first
        | exact (congrArg Prod.fst hstep).symm
        | exact absurd (congrArg Prod.snd hstep).symm hfail
    · rename_i h0
      rw [if_neg h0]
      exact (congrArg Prod.fst hstep).symm

/-- A registration whose write of the directory fails, and one that succeeds. -/
def failedRegistration : List Registration :=
  [⟨twoUsers true, [true, true, false], .ret false⟩, ⟨twoUsers false, [], .ret true⟩]

/-- The data after them. -/
def failedRegistrationData : Database :=
  (exec (DatabaseManager.insertUser (twoUsers false))
    (exec (DatabaseManager.insertUser (twoUsers true)) Database.empty [true, true, false]).1 []).1

theorem failedRegistration_inTurn :
    InTurn DatabaseManager.insertUser .empty failedRegistration failedRegistrationData :=
  .cons (Prod.ext rfl (Prog.answer_eq_some.1 (by decide +kernel)))
    (.cons (Prod.ext rfl (Prog.answer_eq_some.1 (by decide +kernel))) (.nil _))

theorem registrations_correspond_failed :
    (∀ d ∈ failedRegistration, ¬ d.HalfDone →
        (failedRegistrationData.value [d.arg.safeEmail] = .ofStringDict d.arg.node ↔
          InDirectory failedRegistrationData d.arg)) ∧
      (∀ d ∈ failedRegistration, d.HalfDone →
        failedRegistrationData.value [d.arg.safeEmail] = .ofStringDict d.arg.node ∧
          NotInDirectory failedRegistrationData d.arg.safeEmail) ∧
      (∀ key, key ≠ "users" → (∀ d ∈ failedRegistration, d.arg.safeEmail ≠ key) →
        failedRegistrationData.value [key] = .null ∧
          NotInDirectory failedRegistrationData key) ∧
      ∀ d ∈ failedRegistration, ∀ s s' : Database,
        exec (DatabaseManager.insertUser d.arg) s d.fate = (s', d.outcome) →
          d.outcome ≠ .ret true →
            s' = if d.fate.headD true then s.setValue [d.arg.safeEmail] (.ofStringDict d.arg.node)
              else s :=
  registrations_correspond failedRegistration_inTurn
    (List.forall_mem_cons.2 ⟨by decide +kernel, List.forall_mem_cons.2 ⟨by decide +kernel, nofun⟩⟩)
    (.cons (fun d hd => by rw [List.mem_singleton.1 hd]; decide +kernel) (List.pairwise_singleton ..))

/-- An account at the key of the directory. -/
def directoryUser : ChatAppUser := ⟨"Zain", "Ali", "users"⟩

/-- The first user's node exists without an entry, after a call that completed with `false`. And a
user at the key `users` whose call completed with `true` has an entry and no node. -/
theorem registration_half_done :
    (InTurn DatabaseManager.insertUser .empty failedRegistration failedRegistrationData ∧
      (⟨twoUsers true, [true, true, false], .ret false⟩ : Registration) ∈ failedRegistration ∧
      failedRegistrationData.value [(twoUsers true).safeEmail] =
        .ofStringDict (twoUsers true).node ∧
      ¬ InDirectory failedRegistrationData (twoUsers true) ∧
      (exec (DatabaseManager.insertUser (twoUsers true)) Database.empty [true, true, false]).1.value
        [(twoUsers true).safeEmail] ≠ Database.empty.value [(twoUsers true).safeEmail]) ∧
    ∃ db, InTurn DatabaseManager.insertUser .empty [⟨directoryUser, [], .ret true⟩] db ∧
      InDirectory db directoryUser ∧
      db.value [directoryUser.safeEmail] ≠ .ofStringDict directoryUser.node := by
  refine ⟨⟨failedRegistration_inTurn, .head _, rfl, fun h => ?_, fun h => ?_⟩,
    (exec (DatabaseManager.insertUser directoryUser) Database.empty []).1,
    .cons (Prod.ext rfl (Prog.answer_eq_some.1 (by decide +kernel))) (.nil _), by rfl, fun h => ?_⟩
  · have hlen := congrArg List.length h
    revert hlen
    decide +kernel
  · have hdict := congrArg (fun v => v.asDict.isSome) h
    revert hdict
    decide +kernel
  · have hdict := congrArg (fun v => v.asDict.isSome) h
    revert hdict
    decide +kernel

end IChat
