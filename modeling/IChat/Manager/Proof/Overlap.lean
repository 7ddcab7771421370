import IChat.Manager.Proof.Spec
import IChat.Manager.Runs

/-!
# Overlapping calls on one collection

Registrations rewrite the whole directory, and new conversations the whole node of the caller, from
what they read before. When all calls succeed nothing is lost if every one of these writes was fresh
(`Config.FreshRun`): nobody wrote between the read and the write. Of calls whose other writes are
apart from the collection, these are exactly the runs in which nothing is lost. A write inside the
collection, or above it, breaks it; a stale write by another call may then restore it by chance.
-/

namespace IChat

open Async Firebase

variable {ι : Type}

/-! ## Registrations -/

/-- The safe email in a directory entry. -/
def entrySafeEmail (entry : Value) : Option String := (entry.field "safeEmail").asString

/-- Every entry of the start is there, and exactly one entry for each account. -/
structure RegistrationsKept (users : ι → ChatAppUser) (start final : List Value) : Prop where
  kept : start.Sublist final
  registered : ∀ i, final.filter (entrySafeEmail · = some (users i).safeEmail) =
    [.ofStringDict (users i).newUser]

theorem entrySafeEmail_newUser (user : ChatAppUser) :
    entrySafeEmail (.ofStringDict user.newUser) = some user.safeEmail := rfl

section
variable [DecidableEq ι]

/-- Of the entries of different clients, a filter keeps the one it accepts. -/
theorem filter_map_entry {β : Type} {L : List ι} (hL : L.Nodup) {i : ι} (hi : i ∈ L)
    {entry : ι → β} {p : β → Bool} (hp : ∀ j, p (entry j) = decide (j = i)) :
    (L.map entry).filter p = [entry i] := by
  have hfun : p ∘ entry = fun j => j == i := funext fun j => by
    rw [Function.comp_apply, hp j, beq_eq_decide]
  rw [List.filter_map, hfun, List.filter_beq, List.count_eq_one_of_mem hL hi]
  rfl

/-- No account's node is the directory, inside it or above it; every write of the directory was
fresh; and at the start nothing was stored there, or an array of string dictionaries. -/
structure RegistrationsFresh (users : ι → ChatAppUser) (db : Database) (fates : ι → List Bool)
    (sched : List ι) : Prop where
  nodes : ∀ i p, child (users i).safeEmail = some p → KeyTree.Apart p ["users"]
  fresh : (registrations db users fates).FreshRun ["users"] sched
  casts : Nonempty ι → directory db = [] ∨ (db.value ["users"]).asStringDictArray.isSome

/-- For nodes apart from the directory. -/
theorem registrationsKept_iff {users : ι → ChatAppUser} {db : Database} {fates : ι → List Bool}
    {sched : List ι}
    (hnode : ∀ i p, child (users i).safeEmail = some p → KeyTree.Apart p ["users"])
    (hdiff : ∀ i j, (users i).safeEmail = (users j).safeEmail → i = j)
    (hnew : ∀ i, ∀ x ∈ directory db, entrySafeEmail x ≠ some (users i).safeEmail)
    (hdone : ∀ i, (((registrations db users fates).run sched).jobs i).prog = .ret true) :
    RegistrationsKept users (directory db)
        (directory ((registrations db users fates).run sched).store) ↔
      (registrations db users fates).FreshRun ["users"] sched ∧
        (Nonempty ι → directory db = [] ∨ (db.value ["users"]).asStringDictArray.isSome) := by
  have hU : ∀ i, Updates Database ["users"] (appendUser (users i)) (· = true)
      ((registrations db users fates).jobs i).prog := fun i => by
    rw [registrations_prog]; exact DatabaseManager.insertUser_updates (hnode i)
  obtain ⟨L, hL, hfresh, hgood, hdrop⟩ := Config.run_items (appendUser_appending users)
    (db.canonical_value ["users"]) hU fun i => ⟨true, hdone i, rfl⟩
  rw [hfresh]
  change _ → directory _ = directory db ++ _ at hgood
  change _ → ¬(directory db = [] ∨ _) → directory _ = _ at hdrop
  have hentry : ∀ {x i}, x ∈ L.map (fun i => Value.ofStringDict (users i).newUser) →
      entrySafeEmail x = some (users i).safeEmail → i ∈ L := fun {x i} hx he => by
    obtain ⟨j, hj, rfl⟩ := List.mem_map.1 hx
    exact hdiff j i (Option.some.inj he) ▸ hj
  constructor
  · rintro ⟨hkept, hreg⟩
    have hmem : ∀ i, Value.ofStringDict (users i).newUser ∈
        directory ((registrations db users fates).run sched).store := fun i =>
      List.mem_of_mem_filter (hreg i ▸ List.mem_singleton_self _)
    by_cases hg : Nonempty ι →
        directory db = [] ∨ (db.value ["users"]).asStringDictArray.isSome = true
    · refine ⟨fun i => ?_, hg⟩
      rcases List.mem_append.1 (hgood hg ▸ hmem i) with h | h
      · exact absurd (entrySafeEmail_newUser _) (hnew i _ h)
      · exact hentry h (entrySafeEmail_newUser _)
    · -- the entries of the start were dropped, and none of them is written again
      obtain ⟨hne, hg⟩ := Classical.not_imp.1 hg
      obtain ⟨x, hx⟩ := List.exists_mem_of_ne_nil _ (not_or.1 hg).1
      obtain ⟨j, -, hj⟩ := List.mem_map.1 (hdrop hne hg ▸ hkept.subset hx)
      exact absurd (hj ▸ entrySafeEmail_newUser (users j)) (hnew j x hx)
  · rintro ⟨hall, hg⟩
    rw [hgood hg]
    refine ⟨List.sublist_append_left _ _, fun i => ?_⟩
    have hstart : (directory db).filter (entrySafeEmail · = some (users i).safeEmail) = [] :=
      List.filter_eq_nil_iff.2 fun x hx => by simpa using hnew i x hx
    rw [List.filter_append, hstart, List.nil_append]
    refine filter_map_entry hL (hall i) fun j => ?_
    simp only [entrySafeEmail_newUser, Option.some.injEq, decide_eq_decide]
    exact ⟨hdiff j i, fun h => h ▸ rfl⟩

/-- **Registrations that all succeed are all in the directory if every write of it was fresh**, and
among accounts whose nodes are apart from it only then. -/
theorem registrationsKept_of_fresh {users : ι → ChatAppUser} (db : Database) (fates : ι → List Bool)
    (sched : List ι) (hdiff : ∀ i j, (users i).safeEmail = (users j).safeEmail → i = j)
    (hnew : ∀ i, ∀ x ∈ directory db, entrySafeEmail x ≠ some (users i).safeEmail)
    (hdone : ∀ i, (((registrations db users fates).run sched).jobs i).prog = .ret true) :
    (RegistrationsFresh users db fates sched → RegistrationsKept users (directory db)
        (directory ((registrations db users fates).run sched).store)) ∧
      ((∀ i p, child (users i).safeEmail = some p → KeyTree.Apart p ["users"]) →
        RegistrationsKept users (directory db)
          (directory ((registrations db users fates).run sched).store) →
        RegistrationsFresh users db fates sched) := by
  constructor
  · intro h
    exact (registrationsKept_iff h.nodes hdiff hnew hdone).2 ⟨h.fresh, h.casts⟩
  · intro hnode h
    obtain ⟨hfresh, hcasts⟩ := (registrationsKept_iff hnode hdiff hnew hdone).1 h
    exact ⟨hnode, hfresh, hcasts⟩

end

/-- Two accounts. -/
def twoUsers : Bool → ChatAppUser
  | true => ⟨"Ada", "Said", "ada@mail.com"⟩
  | false => ⟨"Omar", "Adel", "omar@mail.com"⟩

theorem twoUsers_node (i : Bool) (p : Path) (h : child (twoUsers i).safeEmail = some p) :
    KeyTree.Apart p ["users"] := by
  cases i <;> cases h <;> exact .inl (by decide)

theorem twoUsers_diff (i j : Bool) (h : (twoUsers i).safeEmail = (twoUsers j).safeEmail) :
    i = j := by
  revert i j; decide

/-- One registration after the other. -/
theorem registrationsKept_of_fresh_sequential :
    let sched := [true, true, true, false, false, false]
    RegistrationsFresh twoUsers .empty (fun _ => []) sched ∧
      RegistrationsKept twoUsers (directory .empty)
        (directory ((registrations .empty twoUsers fun _ => []).run sched).store) := by
  have h := registrationsKept_of_fresh .empty (fun _ => []) [true, true, true, false, false, false]
    twoUsers_diff (fun _ x hx => by cases hx) fun i =>
      Prog.answer_eq_some.1 (by revert i; decide +kernel)
  have hkept : RegistrationsKept twoUsers (directory .empty)
      (directory ((registrations .empty twoUsers fun _ => []).run
        [true, true, true, false, false, false]).store) :=
    ⟨List.nil_sublist _, fun i => by cases i <;> rfl⟩
  exact ⟨h.2 twoUsers_node hkept, hkept⟩

/-- Both read the empty directory before either writes it: both answer `true`, and one of them is
not in the directory. -/
theorem registration_lost :
    let sched := [true, false, true, false, true, false]
    let final := (registrations .empty twoUsers fun _ => []).run sched
    (∀ i, (final.jobs i).prog = .ret true) ∧ directory .empty = [] ∧
      (∀ i p, child (twoUsers i).safeEmail = some p → KeyTree.Apart p ["users"]) ∧
      (∀ i j, (twoUsers i).safeEmail = (twoUsers j).safeEmail → i = j) ∧
      ¬ RegistrationsKept twoUsers (directory .empty) (directory final.store) := by
  refine ⟨fun i => Prog.answer_eq_some.1 (by revert i; decide +kernel), rfl, twoUsers_node,
    twoUsers_diff, fun h => ?_⟩
  have hlen := congrArg List.length (h.registered true)
  revert hlen
  decide +kernel

/-! ## New conversations of one user -/

section
variable {reqs : ι → ConversationRequest} {user : Path}

theorem creations_updates (db : Database) (fates : ι → List Bool) {i : ι}
    (huser : child (reqs i).userKey = some user)
    (hconv : ∀ p, child (reqs i).conversationKey = some p → KeyTree.Apart p user) :
    Updates Database user (appendConversation (reqs i).entry) (· = true)
      ((creations db reqs fates).jobs i).prog := by
  rw [creations_prog]
  exact DatabaseManager.createNewConversation_updates _ _ _ huser hconv

theorem canonical_entry (req : ConversationRequest) : Canonical (.dict req.entry) :=
  canonical_newConversationData ..

theorem canonical_requestNode (req : ConversationRequest) : Canonical (.dict req.node) :=
  canonical_conversationNode (canonical_messageData ..)

/-- The other fields of the user's node stay. -/
theorem field_chain {entry : ι → List (String × Value)} (he : ∀ i, Canonical (.dict (entry i)))
    {v : Value} (hv : Canonical v ∧ ∃ userNode, v = .dict userNode) (L : List ι) {k : String}
    (hk : k ≠ "conversations") :
    (chain Database (fun i => appendConversation (entry i)) v L).field k = v.field k := by
  induction L using List.reverseRecOn with
  | nil => rfl
  | append_singleton L i ih =>
    obtain ⟨hc, userNode, hn⟩ := (appendConversation_appending he).chain_valid hv L
    rw [hn] at hc ih
    rw [chain_concat, hn, mem_norm, stored_appendConversation hc (he i), appendConversation_dict,
      ← ih, Value.field_dict, Value.field_dict, SortedMap.find_insert_ne hk]

/-- The list has its start and one entry for each call, and the other fields stay. -/
structure CreationsKept (reqs : ι → ConversationRequest) (user : Path) (start final : Database) :
    Prop where
  conversations : AllKept (conversationList start user) (conversationList final user)
    fun i => .dict (reqs i).entry
  fields : ∀ k, k ≠ "conversations" → (final.value user).field k = (start.value user).field k

/-- No conversation is at the user's node, inside it or above it; every write of the user's node was
fresh; and at the start the list was empty, or an array of dictionaries. -/
structure CreationsFresh [DecidableEq ι] (reqs : ι → ConversationRequest) (user : Path)
    (db : Database) (fates : ι → List Bool) (sched : List ι) : Prop where
  conversations : ∀ i p, child (reqs i).conversationKey = some p → KeyTree.Apart p user
  fresh : (creations db reqs fates).FreshRun user sched
  casts : Nonempty ι → conversationList db user = [] ∨
    ((db.value user).field "conversations").asDictArray.isSome

/-- For conversations apart from the user's node. -/
theorem creationsKept_iff [DecidableEq ι] {db : Database} {fates : ι → List Bool} {sched : List ι}
    (huser : ∀ i, child (reqs i).userKey = some user) (hreg : ∃ node, db.value user = .dict node)
    (hconv : ∀ i p, child (reqs i).conversationKey = some p → KeyTree.Apart p user)
    (hdone : ∀ i, (((creations db reqs fates).run sched).jobs i).prog = .ret true) :
    CreationsKept reqs user db ((creations db reqs fates).run sched).store ↔
      (creations db reqs fates).FreshRun user sched ∧
        (Nonempty ι → conversationList db user = [] ∨
          ((db.value user).field "conversations").asDictArray.isSome) := by
  have hv : Canonical (db.value user) ∧ ∃ node, db.value user = .dict node :=
    ⟨db.canonical_value user, hreg⟩
  have hU := fun i => creations_updates db fates (huser i) (hconv i)
  have hret : ∀ i, ∃ r, (((creations db reqs fates).run sched).jobs i).prog = .ret r ∧ r = true :=
    fun i => ⟨true, hdone i, rfl⟩
  have hkept := Config.allKept_iff
    (appendConversation_appending fun i => canonical_entry (reqs i)) hv hU hret
  refine ⟨fun h => hkept.1 h.conversations, fun h => ⟨hkept.2 h, fun k hk => ?_⟩⟩
  obtain ⟨L, -, -, -, -, -, -, -, hval, -⟩ :=
    Config.run_chain (B := fun _ => False) (fun i _ => hU i) (fun _ h => h.elim) sched
  change ((creations db reqs fates).run sched).store.value user = chain _ _ (db.value user) L at hval
  rw [hval]
  exact field_chain (fun i => canonical_entry (reqs i)) hv L hk

/-- **New conversations of one user that are all created are all in the user's list if every write
of the user's node was fresh**, and among conversations apart from that node only then. -/
theorem creationsKept_of_fresh [DecidableEq ι] (db : Database) (fates : ι → List Bool)
    (sched : List ι) (huser : ∀ i, child (reqs i).userKey = some user)
    (hreg : ∃ node, db.value user = .dict node)
    (hdone : ∀ i, (((creations db reqs fates).run sched).jobs i).prog = .ret true) :
    (CreationsFresh reqs user db fates sched →
        CreationsKept reqs user db ((creations db reqs fates).run sched).store) ∧
      ((∀ i p, child (reqs i).conversationKey = some p → KeyTree.Apart p user) →
        CreationsKept reqs user db ((creations db reqs fates).run sched).store →
        CreationsFresh reqs user db fates sched) := by
  constructor
  · intro h
    exact (creationsKept_iff huser hreg h.conversations hdone).2 ⟨h.fresh, h.casts⟩
  · intro hconv h
    obtain ⟨hfresh, hcasts⟩ := (creationsKept_iff huser hreg hconv hdone).1 h
    exact ⟨hconv, hfresh, hcasts⟩

end

/-- Two messages of one user, from two devices. -/
def twoRequests (i : Bool) : ConversationRequest where
  manager := ⟨"ada@mail.com"⟩
  dateFormatter := ⟨toString⟩
  otherUserEmail := "omar-mail-com"
  otherUserName := "Omar Adel"
  firstMessage := ⟨if i then "first" else "second", 0, .text "hello"⟩

/-- A database in which the user is registered. -/
def registered : Database :=
  (registrations .empty (fun _ : Unit => twoUsers true) fun _ => []).run [(), (), ()] |>.store

theorem twoRequests_user (i : Bool) : child (twoRequests i).userKey = some ["ada-mail-com"] := by
  revert i; decide +kernel

theorem twoRequests_conversation (i : Bool) (p : Path)
    (h : child (twoRequests i).conversationKey = some p) : KeyTree.Apart p ["ada-mail-com"] := by
  cases i <;> cases h <;> exact .inl (by decide)

theorem registered_user : ∃ node, registered.value ["ada-mail-com"] = .dict node := ⟨_, rfl⟩

/-- One call after the other. -/
theorem creationsKept_of_fresh_sequential :
    let sched := [true, true, true, false, false, false]
    CreationsFresh twoRequests ["ada-mail-com"] registered (fun _ => []) sched ∧
      CreationsKept twoRequests ["ada-mail-com"] registered
        ((creations registered twoRequests fun _ => []).run sched).store := by
  have h := creationsKept_of_fresh registered (fun _ => [])
    [true, true, true, false, false, false] twoRequests_user registered_user fun i =>
      Prog.answer_eq_some.1 (by revert i; decide +kernel)
  have hkept : CreationsKept twoRequests ["ada-mail-com"] registered
      ((creations registered twoRequests fun _ => []).run
        [true, true, true, false, false, false]).store :=
    ⟨⟨[true, false], by decide, by decide, .of_eq rfl⟩, fun k hk =>
      field_chain (fun i => canonical_entry (twoRequests i))
        ⟨registered.canonical_value ["ada-mail-com"], registered_user⟩ [true, false] hk⟩
  exact ⟨h.2 twoRequests_conversation hkept, hkept⟩

/-- Both read the user's node before either writes it: both answer `true`, and the list has one
entry. -/
theorem conversation_lost :
    let sched := [true, false, true, false, true, false]
    let final := (creations registered twoRequests fun _ => []).run sched
    (∀ i, (final.jobs i).prog = .ret true) ∧
      (∀ i j, (twoRequests i).firstMessage.messageId = (twoRequests j).firstMessage.messageId →
        i = j) ∧
      (∀ i, child (twoRequests i).userKey = some ["ada-mail-com"]) ∧
      (∃ node, registered.value ["ada-mail-com"] = .dict node) ∧
      ¬ CreationsKept twoRequests ["ada-mail-com"] registered final.store := by
  refine ⟨fun i => Prog.answer_eq_some.1 (by revert i; decide +kernel), by decide,
    twoRequests_user, registered_user, fun h => ?_⟩
  obtain ⟨L, -, hall, hperm⟩ := h.conversations
  -- the two calls are in `L`, but the list has one entry
  have hlen := hperm.length_eq
  rw [List.length_append, List.length_map] at hlen
  have hL : [true, false].length ≤ L.length :=
    List.Nodup.length_le_of_subset (by decide) fun i _ => hall i
  have hone : (conversationList ((creations registered twoRequests fun _ => []).run
      [true, false, true, false, true, false]).store ["ada-mail-com"]).length = 1 := by
    decide +kernel
  simp only [List.length_cons, List.length_nil] at hL
  omega

end IChat
