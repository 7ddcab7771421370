import IChat.Manager.ChatStore
import IChat.Manager.Proof.Alone
import IChat.Manager.Proof.Isolation

/-!
# The database refines the chat store

`Represents a db`: the directory lists the users of `a`, every user's node has the user's names and
an entry for each conversation the user created, and every conversation's node has its message.
Successful calls that run one after the other keep it (`Represents.run`), and from it the readers
answer what the chat store says (`chatStore_refined`).
-/

namespace IChat

open Async Firebase SortedMap

/-! ## Lists that were written -/

theorem stored_ofDictArray {ds : List (List (String × Value))}
    (h : ∀ d ∈ ds, Canonical (.dict d)) (hne : ds ≠ []) :
    stored (.ofDictArray ds) = .ofDictArray ds := by
  refine canonical_arr (by simpa using hne) fun x hx => ?_
  obtain ⟨d, hd, rfl⟩ := List.mem_map.1 hx
  exact ⟨h d hd, nofun⟩

theorem stored_ofStringDictArray {ds : List (List (String × String))}
    (h : ∀ d ∈ ds, Canonical (.ofStringDict d)) (hne : ds ≠ []) :
    stored (.ofStringDictArray ds) = .ofStringDictArray ds := by
  refine canonical_arr (by simpa using hne) fun x hx => ?_
  obtain ⟨d, hd, rfl⟩ := List.mem_map.1 hx
  exact ⟨h d hd, nofun⟩

/-- What a reader of a list answers: an empty list is not stored. -/
def orFailure {α : Type} (l : List α) : Except DatabaseError (List α) :=
  if l.isEmpty then .error .failedToFetch else .ok l

theorem asStringDictArray_users (users : List ChatAppUser) :
    (stored (.ofStringDictArray (users.map ChatAppUser.newUser))).asStringDictArray =
      if users.isEmpty then none else some (users.map ChatAppUser.newUser) := by
  cases users with
  | nil => rfl
  | cons user users =>
    rw [stored_ofStringDictArray (fun d hd => ?_) (by simp)]
    · exact Value.asStringDictArray_eq_some.2 rfl
    · obtain ⟨u, -, rfl⟩ := List.mem_map.1 hd
      exact canonical_newUser u

theorem asDictArray_entries (reqs : List ConversationRequest) :
    (stored (.ofDictArray (reqs.map ConversationRequest.entry))).asDictArray =
      if reqs.isEmpty then none else some (reqs.map ConversationRequest.entry) := by
  cases reqs with
  | nil => rfl
  | cons req reqs =>
    rw [stored_ofDictArray (fun d hd => ?_) (by simp)]
    · exact Value.asDictArray_eq_some.2 rfl
    · obtain ⟨r, -, rfl⟩ := List.mem_map.1 hd
      exact canonical_entry r

theorem appendUser_users (users : List ChatAppUser) (user : ChatAppUser) :
    appendUser user (stored (.ofStringDictArray (users.map ChatAppUser.newUser))) =
      .ofStringDictArray ((users ++ [user]).map ChatAppUser.newUser) := by
  rw [appendUser, asStringDictArray_users, List.map_append]
  cases users <;> rfl

/-! ## The user's node -/

/-- The node of a user who created the given conversations. -/
structure UserNode (user : ChatAppUser) (created : List ConversationRequest) (node : Value) :
    Prop where
  isDict : ∃ userNode, node = .dict userNode
  firstName : node.field "first_name" = .str user.firstName
  lastName : node.field "last_name" = .str user.lastName
  conversations : conversationsField node =
    stored (.ofDictArray (created.map ConversationRequest.entry))

theorem UserNode.new (user : ChatAppUser) : UserNode user [] (stored (.ofStringDict user.node)) := by
  rw [canonical_node]
  exact ⟨⟨_, rfl⟩, rfl, rfl, rfl⟩

theorem UserNode.append {user : ChatAppUser} {created : List ConversationRequest} {node : Value}
    (h : UserNode user created node) (hc : Canonical node) (req : ConversationRequest) :
    UserNode user (created ++ [req]) (stored (appendConversation req.entry node)) := by
  obtain ⟨⟨userNode, rfl⟩, hf, hl, hconv⟩ := h
  have hentries : conversationsField (appendConversation req.entry (.dict userNode)) =
      .ofDictArray ((created ++ [req]).map ConversationRequest.entry) := by
    rw [conversationsField_append, hconv, asDictArray_entries, List.map_append]
    cases created <;> rfl
  rw [stored_appendConversation hc (canonical_entry req)]
  refine ⟨⟨_, appendConversation_dict ..⟩, ?_, ?_, ?_⟩
  · rw [appendConversation_dict, Value.field_dict, find_insert_ne (by decide)]; exact hf
  · rw [appendConversation_dict, Value.field_dict, find_insert_ne (by decide)]; exact hl
  · rw [hentries, stored_ofDictArray (fun d hd => ?_) (by simp)]
    obtain ⟨r, -, rfl⟩ := List.mem_map.1 hd
    exact canonical_entry r

/-! ## The relation -/

structure Represents (a : ChatStore) (db : Database) : Prop where
  valid : a.Valid
  directory : db.value ["users"] = stored (.ofStringDictArray (a.users.map ChatAppUser.newUser))
  user : ∀ user ∈ a.users, UserNode user (a.created user) (db.value [user.safeEmail])
  conversation : ∀ req ∈ a.requests, db.value [req.conversationKey] = .dict req.node

section
variable {a : ChatStore} {db db' : Database}

theorem value_setValue_ne {k k' : String} (h : k ≠ k') (db : Database) (v : Value) :
    (db.setValue [k] v).value [k'] = db.value [k'] :=
  db.value_setValue_apart v (KeyTree.apart_singleton.2 h)

theorem Represents.insertUser (h : Represents a db) {user : ChatAppUser}
    (hop : a.Fresh user.safeEmail) :
    Represents (a.apply (.insertUser user)) (registeredData db [user.safeEmail] user) := by
  refine ⟨h.valid.apply hop, ?_, fun u hu => ?_, fun req hr => ?_⟩
  · rw [registeredData, Database.value_setValue_self, h.directory, appendUser_users]
    rfl
  · rcases List.mem_append.1 hu with hu | hu
    · rw [registeredData, value_setValue_ne (Ne.symm (h.valid.user_legal u hu).2),
        value_setValue_ne (Ne.symm (hop.ne_user u hu))]
      exact h.user u hu
    · obtain rfl := List.mem_singleton.1 hu
      -- nobody with this email has created a conversation, as callers are registered
      have hnone : (a.apply (.insertUser u)).created u = [] := by
        refine List.filter_eq_nil_iff.2 fun req hr he => ?_
        obtain ⟨u', hu', he'⟩ := h.valid.caller req hr
        refine hop.ne_user u' hu' ?_
        rw [ChatAppUser.safeEmail, he', of_decide_eq_true he]
        rfl
      rw [hnone, registeredData, value_setValue_ne (Ne.symm hop.ne_users),
        Database.value_setValue_self]
      exact .new u
  · rw [registeredData, value_setValue_ne (Ne.symm (h.valid.conversation_legal req hr).2),
      value_setValue_ne (Ne.symm (hop.ne_conversation req hr))]
    exact h.conversation req hr

theorem Represents.createNewConversation (h : Represents a db) {req : ConversationRequest}
    (hop : a.Fresh req.conversationKey) {caller : ChatAppUser} (hcaller : caller ∈ a.users)
    (hemail : caller.email = req.manager.userEmail) :
    Represents (a.apply (.createNewConversation req))
      (req.createdData db [caller.safeEmail] [req.conversationKey]) := by
  refine ⟨h.valid.apply ⟨hop, caller, hcaller, hemail⟩, ?_, fun u hu => ?_, fun r hr => ?_⟩
  · rw [ConversationRequest.createdData, value_setValue_ne hop.ne_users,
      value_setValue_ne (h.valid.user_legal caller hcaller).2]
    exact h.directory
  · rw [ConversationRequest.createdData, value_setValue_ne (Ne.symm (hop.ne_user u hu))]
    by_cases hk : caller.safeEmail = u.safeEmail
    · obtain rfl := h.valid.user_unique caller hcaller u hu hk
      have hcreated : (a.apply (.createNewConversation req)).created caller =
          a.created caller ++ [req] := by
        simp only [ChatStore.created, ChatStore.apply, List.filter_append, List.filter_cons,
          hemail, decide_true, ↓reduceIte, List.filter_nil]
      rw [hcreated, Database.value_setValue_self]
      exact (h.user caller hcaller).append (db.canonical_value _) req
    · have hcreated : (a.apply (.createNewConversation req)).created u = a.created u := by
        have hne : ¬ req.manager.userEmail = u.email := fun he => hk (by
          rw [ChatAppUser.safeEmail, hemail, he]; rfl)
        simp only [ChatStore.created, ChatStore.apply, List.filter_append, List.filter_cons, hne,
          decide_false, Bool.false_eq_true, ↓reduceIte, List.filter_nil, List.append_nil]
      rw [hcreated, value_setValue_ne hk]
      exact h.user u hu
  · rcases List.mem_append.1 hr with hr | hr
    · rw [ConversationRequest.createdData, value_setValue_ne (Ne.symm (hop.ne_conversation r hr)),
        value_setValue_ne (h.valid.apart caller hcaller r hr)]
      exact h.conversation r hr
    · obtain rfl := List.mem_singleton.1 hr
      rw [ConversationRequest.createdData, Database.value_setValue_self]
      exact canonical_requestNode _

/-- **Step lemma**: an admitted call that runs alone and completes with `true` keeps the
relation. -/
theorem Represents.step (h : Represents a db) {op : StoreOp} (hop : a.Admits op) {o : List Bool}
    (hrun : exec op.call db o = (db', .ret true)) : Represents (a.apply op) db' := by
  cases op with
  | insertUser user =>
    rw [StoreOp.call, exec_insertUser (child_key hop.legal)
      (KeyTree.apart_singleton.2 hop.ne_users)] at hrun
    repeat split at hrun
    all_goals cases hrun
    exact h.insertUser hop
  | createNewConversation req =>
    obtain ⟨hfresh, caller, hcaller, hemail⟩ := hop
    have hkey : child req.userKey = some [caller.safeEmail] := by
      have := child_key (h.valid.user_legal caller hcaller).1
      rwa [ChatAppUser.safeEmail, hemail] at this ⊢
    have hdict : (db.value [caller.safeEmail]).asDict.isSome := by
      obtain ⟨userNode, hv⟩ := (h.user caller hcaller).isDict
      rw [hv]; rfl
    rw [StoreOp.call, ConversationRequest.exec_call hkey hdict] at hrun
    simp only [child_key hfresh.legal] at hrun
    repeat split at hrun
    all_goals cases hrun
    exact h.createNewConversation hfresh hcaller hemail

/-- **Run lemma**. -/
theorem Represents.run {ops : List StoreOp} (h : Represents a db) (hops : a.AdmitsAll ops)
    (hrun : Succeeds db ops db') : Represents (a.run ops) db' := by
  obtain ⟨hist, hrun, rfl, htrue⟩ := hrun
  induction hrun generalizing a with
  | nil => exact h
  | cons hd _ ih =>
    rw [htrue _ (.head _)] at hd
    exact ih (h.step hops.1 hd) (fun d hmem => htrue d (.tail _ hmem)) hops.2

/-- An admitted call completes with `true` when its operations succeed. -/
theorem Represents.succeeds_step (h : Represents a db) {op : StoreOp} (hop : a.Admits op) :
    ∃ db', exec op.call db [] = (db', .ret true) := by
  cases op with
  | insertUser user =>
    exact ⟨_, exec_insertUser (child_key hop.legal) (KeyTree.apart_singleton.2 hop.ne_users) db []⟩
  | createNewConversation req =>
    obtain ⟨hfresh, caller, hcaller, hemail⟩ := hop
    have hkey : child req.userKey = some [caller.safeEmail] := by
      have := child_key (h.valid.user_legal caller hcaller).1
      rwa [ChatAppUser.safeEmail, hemail] at this ⊢
    obtain ⟨userNode, hv⟩ := (h.user caller hcaller).isDict
    refine ⟨req.createdData db [caller.safeEmail] [req.conversationKey], ?_⟩
    rw [StoreOp.call, ConversationRequest.exec_call hkey (by rw [hv]; rfl)]
    simp only [child_key hfresh.legal, List.headD_nil, List.tail_nil, ↓reduceIte]

theorem Represents.succeeds (h : Represents a db) {ops : List StoreOp} (hops : a.AdmitsAll ops) :
    ∃ db', Succeeds db ops db' := by
  induction ops generalizing a db with
  | nil => exact ⟨db, [], .nil db, rfl, nofun⟩
  | cons op ops ih =>
    obtain ⟨db1, h1⟩ := h.succeeds_step hops.1
    obtain ⟨db2, hist, h2, rfl, htrue⟩ := ih (h.step hops.1 h1) hops.2
    exact ⟨db2, ⟨op, [], .ret true⟩ :: hist, .cons h1 h2, rfl, List.forall_mem_cons.2 ⟨rfl, htrue⟩⟩

/-! ## The readers -/

theorem Represents.getallUser (h : Represents a db) :
    exec DatabaseManager.getallUser db [] =
      (db, .ret (orFailure (a.users.map ChatAppUser.newUser))) := by
  simp only [DatabaseManager.getallUser, atChild, child_users, observeSingleEvent, exec, mem_get,
    List.headD_nil, ↓reduceIte, h.directory, asStringDictArray_users, orFailure,
    List.isEmpty_map]
  cases a.users.isEmpty <;> rfl

/-- The entries a user created decode to the user's conversations. -/
theorem conversationsOf_entries (reqs : List ConversationRequest) :
    conversationsOf (stored (.ofDictArray (reqs.map ConversationRequest.entry))) =
      orFailure (reqs.map ConversationRequest.conversation) := by
  simp only [conversationsOf, asDictArray_entries, orFailure, List.isEmpty_map]
  cases reqs.isEmpty with
  | true => rfl
  | false =>
    refine congrArg Except.ok ?_
    rw [List.filterMap_map]
    exact List.filterMap_eq_map_iff_forall_eq_some.2 fun req _ => ofDictionary_entry req

theorem Represents.getAllConversation (h : Represents a db) {user : ChatAppUser}
    (hu : user ∈ a.users) :
    exec (DatabaseManager.getAllConversation user.safeEmail) db [] =
      (db, .ret (orFailure ((a.created user).map ConversationRequest.conversation))) := by
  have hchild : child (user.safeEmail ++ "/conversations") =
      some ([user.safeEmail] ++ ["conversations"]) := by
    have happ : user.safeEmail ++ "/conversations" = user.safeEmail ++ "/" ++ "conversations" := by
      rw [String.append_assoc]; rfl
    rw [happ]
    exact child_key_field (h.valid.user_legal user hu).1 (by decide)
  obtain ⟨⟨userNode, hv⟩, -, -, hconv⟩ := h.user user hu
  rw [hv] at hconv
  have hvalue : db.value ([user.safeEmail] ++ ["conversations"]) = _ :=
    (Database.value_field hv "conversations").trans hconv
  rw [DatabaseManager.getAllConversation, atChild, hchild]
  simp only [observeSingleEvent, exec, mem_get, List.headD_nil, ↓reduceIte, hvalue,
    conversationsOf_entries]

/-- The one message at a conversation's node. -/
def HoldsMessage (req : ConversationRequest) (node : Value) : Prop :=
  ∃ message, (node.field "messages").asDictArray = some [message] ∧
    find "id" message = some (.str req.firstMessage.messageId) ∧
    find "type" message = some (.str req.firstMessage.kind.description) ∧
    find "content" message = some (.str req.firstMessage.kind.sentMessage) ∧
    find "date" message = some (.str (req.dateFormatter.string req.firstMessage.sentDate)) ∧
    find "sendr_email" message = some (.str req.manager.userEmail)

theorem holdsMessage_node (req : ConversationRequest) : HoldsMessage req (.dict req.node) :=
  ⟨messageData req.manager.userEmail req.dateFormatter req.otherUserName req.firstMessage,
    rfl, rfl, rfl, rfl, rfl, rfl⟩

end

end IChat
