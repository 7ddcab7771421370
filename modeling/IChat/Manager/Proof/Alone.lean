import IChat.Manager.Proof.Interference

/-!
# Calls that run alone

`exec` of the two writing operations, for every outcome of their reads and writes: the flags `o`
say, in order, which operation succeeds.
-/

namespace IChat

open Async Firebase

/-- The data after a registration: the user's node, then the directory. -/
def registeredData (db : Database) (p : Path) (user : ChatAppUser) : Database :=
  (db.setValue p (.ofStringDict user.node)).setValue ["users"]
    (appendUser user (db.value ["users"]))

/-- `insertUser` alone: a failed write of the node changes nothing; after a cancelled read or a
failed write of the directory the node stays written. -/
theorem exec_insertUser {user : ChatAppUser} {p : Path} (hp : child user.safeEmail = some p)
    (h : KeyTree.Apart p ["users"]) (db : Database) (o : List Bool) :
    exec (DatabaseManager.insertUser user) db o =
      if o.headD true then
        if o.tail.headD true then
          if o.tail.tail.headD true then (registeredData db p user, .ret true)
          else (db.setValue p (.ofStringDict user.node), .ret false)
        else (db.setValue p (.ofStringDict user.node), .stop)
      else (db, .ret false) := by
  rw [DatabaseManager.insertUser_eq, atChild, hp]
  simp only [setValue, observeSingleEvent, exec, mem_get, mem_set, ↓reduceIte, Bool.false_eq_true,
    Database.value_setValue_apart _ _ h]
  rfl

/-- What a call of `insertUser` that ran alone can have done, wherever the user's node is: nothing;
or only the first write; or both. -/
theorem exec_insertUser_cases {user : ChatAppUser} {db db' : Database} {o : List Bool}
    {r : Call Bool} (h : exec (DatabaseManager.insertUser user) db o = (db', r)) :
    (db' = db ∧ r ≠ .ret true) ∨
      ∃ p, child user.safeEmail = some p ∧
        ((db' = db.setValue p (.ofStringDict user.node) ∧ r ≠ .ret true) ∨
          (db' = (db.setValue p (.ofStringDict user.node)).setValue ["users"]
              (appendUser user ((db.setValue p (.ofStringDict user.node)).value ["users"])) ∧
            r = .ret true)) := by
  rw [DatabaseManager.insertUser_eq, atChild] at h
  cases hp : child user.safeEmail with
  | none =>
    rw [hp] at h
    obtain ⟨rfl, rfl⟩ := Prod.mk.inj h
    exact .inl ⟨rfl, fun h => by cases h⟩
  | some p =>
    rw [hp] at h
    simp only [setValue, observeSingleEvent, exec, mem_set] at h
    split at h
    · refine .inr ⟨p, rfl, ?_⟩
      simp only [↓reduceIte, exec, mem_get] at h
      split at h
      · split at h
        · obtain ⟨rfl, rfl⟩ := Prod.mk.inj h
          exact .inr ⟨rfl, rfl⟩
        · obtain ⟨rfl, rfl⟩ := Prod.mk.inj h
          exact .inl ⟨rfl, fun h => by cases h⟩
      · obtain ⟨rfl, rfl⟩ := Prod.mk.inj h
        exact .inl ⟨rfl, fun h => by cases h⟩
    · obtain ⟨rfl, rfl⟩ := Prod.mk.inj h
      exact .inl ⟨rfl, fun h => by cases h⟩

namespace ConversationRequest

/-- The data after a new conversation: the caller's node, then the conversation's. -/
def createdData (req : ConversationRequest) (db : Database) (p q : Path) : Database :=
  (db.setValue p (appendConversation req.entry (db.value p))).setValue q (.dict req.node)

/-- `createNewConversation` alone, of a registered user: a failed write of the caller's node changes
nothing; when the conversation's node cannot be written the entry stays. -/
theorem exec_call {req : ConversationRequest} {p : Path} (hp : child req.userKey = some p)
    {db : Database} (hreg : (db.value p).asDict.isSome) (o : List Bool) :
    exec req.call db o =
      if o.headD true then
        if o.tail.headD true then
          match child req.conversationKey with
          | none => (db.setValue p (appendConversation req.entry (db.value p)), .raise)
          | some q =>
            if o.tail.tail.headD true then (req.createdData db p q, .ret true)
            else (db.setValue p (appendConversation req.entry (db.value p)), .ret false)
        else (db, .ret false)
      else (db, .stop) := by
  have hnone : (db.value p).asDict.isNone = false := by
    cases hd : (db.value p).asDict with
    | none => rw [hd] at hreg; cases hreg
    | some d => rfl
  unfold ConversationRequest.call
  rw [DatabaseManager.createNewConversation_eq]
  change child (safeEmail req.manager.userEmail) = some p at hp
  change _ = if _ then if _ then match child req.firstMessage.conversationId with
    | none => _ | some q => _ else _ else _
  cases hq : child req.firstMessage.conversationId <;>
  · simp only [DatabaseManager.finishCreateConversation, atChild, hp, hq, setValue,
      observeSingleEvent, exec, mem_get, mem_set, hnone, ↓reduceIte, Bool.false_eq_true]
    rfl

/-- A caller without a node gets `false`, or no answer when the read is cancelled. -/
theorem exec_call_unregistered {req : ConversationRequest} {p : Path}
    (hp : child req.userKey = some p) {db : Database} (hreg : (db.value p).asDict = none)
    (o : List Bool) :
    exec req.call db o = (db, if o.headD true then .ret false else .stop) := by
  unfold ConversationRequest.call
  rw [DatabaseManager.createNewConversation_eq]
  change child (safeEmail req.manager.userEmail) = some p at hp
  simp only [atChild, hp, observeSingleEvent, exec, mem_get, hreg, Option.isNone_none, ↓reduceIte]
  split <;> rfl

end ConversationRequest

end IChat
