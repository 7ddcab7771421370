import IChat.Manager.Account
import IChat.Manager.Proof.FailedConversations

/-!
# Who is registered

`userExists` looks for a string where `insertUser` writes a dictionary. It tells a registered user
from an unregistered one only where a string is stored at the user's path exactly when the user is
registered; without slashes in the email nothing but dictionaries and arrays are stored there, so it
is right exactly about emails that are not registered (`userExists_agrees_iff`).
-/

namespace IChat

open Async Firebase SortedMap

/-- `userExists` completes with `true`. -/
def AnswersTrue (db : Database) (email : String) : Prop :=
  exec (DatabaseManager.userExists email) db [] = (db, .ret true)

/-- A string is stored at the email's path. -/
def TextAt (db : Database) (email : String) : Prop :=
  ∃ p s, child (safeEmail email) = some p ∧ db.value p = .str s

/-- An account with this safe email was registered. -/
def RegisteredIn (ops : List StoreOp) (email : String) : Prop :=
  ∃ user, .insertUser user ∈ ops ∧ user.safeEmail = safeEmail email

theorem answersTrue_iff {db : Database} {email : String} :
    AnswersTrue db email ↔ TextAt db email := by
  unfold AnswersTrue TextAt DatabaseManager.userExists atChild
  cases child (safeEmail email) with
  | none =>
    constructor
    · intro h; cases h
    · intro h
      obtain ⟨p, s, hp, -⟩ := h
      cases hp
  | some p =>
    simp only [observeSingleEvent, exec, mem_get, List.headD_nil, ↓reduceIte]
    cases hs : (db.value p).asString with
    | none =>
      constructor
      · intro h; cases h
      · intro h
        obtain ⟨p', s, hp, hv⟩ := h
        cases hp
        rw [hv] at hs
        cases hs
    | some s => exact iff_of_true rfl ⟨p, s, rfl, Value.asString_eq_some.1 hs⟩

/-! ## No text at the top -/

/-- No top-level node is a leaf. -/
def NoTopLeaf (db : Database) : Prop := ∀ k a, db.root.child k ≠ .leaf a

theorem noTopLeaf_empty : NoTopLeaf .empty := nofun

/-- What the operations write: an array or a dictionary. -/
def Structured (v : Value) : Prop := ∀ a, nodeFrom v ≠ .leaf a

theorem structured_arr (xs : List Value) : Structured (.arr xs) := nofun

theorem structured_dict (kvs : List (String × Value)) : Structured (.dict kvs) := nofun

/-- A write below the root leaves no leaf at the top. -/
theorem NoTopLeaf.setValue {db : Database} (h : NoTopLeaf db) {p : Path} (hp : p ≠ []) {v : Value}
    (hv : Structured v) : NoTopLeaf (db.setValue p v) := by
  intro k a
  cases p with
  | nil => exact absurd rfl hp
  | cons k' r =>
    simp only [Database.setValue, KeyTree.set, KeyTree.child_setChild]
    split
    · rename_i hk
      subst hk
      cases r with
      | nil => exact hv a
      | cons x r =>
        cases hc : db.root.child k with
        | leaf b => exact absurd hc (h k b)
        | node cs =>
          intro hleaf
          cases hleaf
    · exact h k a

/-- The key of the account that makes the call. -/
def StoreOp.accountKey : StoreOp → String
  | .insertUser user => user.safeEmail
  | .createNewConversation req => req.userKey

/-- A conversation is stored below the root. -/
theorem ConversationRequest.conversation_ne_nil {req : ConversationRequest} {q : Path}
    (hq : child req.conversationKey = some q) : q ≠ [] := by
  unfold child at hq
  split at hq
  · cases hq
    have hkey : req.conversationKey.toList =
        'c' :: ("onversation_".toList ++ req.firstMessage.messageId.toList) := by
      rw [ConversationRequest.conversationKey, Message.conversationId, String.toList_append]
      rfl
    exact pathWithString_ne_nil hkey (by decide)
  · cases hq

/-- **Step lemma**: a call of an account below the root, with any failures. -/
theorem NoTopLeaf.step {db db' : Database} (h : NoTopLeaf db) {op : StoreOp}
    (hroot : child op.accountKey ≠ some []) {o : List Bool} {r : Call Bool}
    (hrun : exec op.call db o = (db', r)) : NoTopLeaf db' := by
  have hne : ∀ {p}, child op.accountKey = some p → p ≠ [] := fun hp he => hroot (he ▸ hp)
  cases op with
  | insertUser user =>
    rcases exec_insertUser_cases hrun with ⟨rfl, -⟩ | ⟨p, hp, ⟨rfl, -⟩ | ⟨rfl, -⟩⟩
    · exact h
    · exact h.setValue (hne hp) (structured_dict _)
    · exact (h.setValue (hne hp) (structured_dict _)).setValue (List.cons_ne_nil _ _)
        (structured_arr _)
  | createNewConversation req =>
    rcases ConversationRequest.exec_call_cases hrun with ⟨rfl, -⟩ |
      ⟨p, userNode, hp, hv, hwrites⟩
    · exact h
    · have hfirst := h.setValue (v := appendConversation req.entry (.dict userNode)) (hne hp)
        (structured_dict _)
      rcases hwrites with ⟨rfl, -⟩ | ⟨q, hq, rfl, -⟩
      · exact hfirst
      · rw [ConversationRequest.createdData, hv]
        exact hfirst.setValue (ConversationRequest.conversation_ne_nil hq) (structured_dict _)

/-- **Run lemma**. -/
theorem NoTopLeaf.run {ops : List StoreOp} {db db' : Database} (h : NoTopLeaf db)
    (hroot : ∀ op ∈ ops, child op.accountKey ≠ some []) (hrun : Succeeds db ops db') :
    NoTopLeaf db' := by
  obtain ⟨hist, hrun, rfl, -⟩ := hrun
  refine hrun.inv (P := fun _ db => NoTopLeaf db) h fun ds d rest s s' he h hstep => ?_
  exact h.step (hroot d.arg (List.mem_map_of_mem (by rw [he]; simp))) hstep

/-- Without text at the top, no string is stored at an email without slashes. -/
theorem NoTopLeaf.not_textAt {db : Database} (h : NoTopLeaf db) {email : String}
    (hslash : '/' ∉ email.toList) : ¬ TextAt db email := by
  intro h
  obtain ⟨p, s, hp, hv⟩ := h
  have hsafe : '/' ∉ (safeEmail email).toList := by
    rw [toList_safeEmail, List.mem_map]
    intro h
    obtain ⟨c, hc, he⟩ := h
    split at he
    · cases he
    · exact hslash (he ▸ hc)
  obtain rfl := child_single hsafe hp
  rw [Database.value, KeyTree.get_cons, KeyTree.get_nil] at hv
  have hnode := congrArg nodeFrom hv
  rw [nodeFrom_val (db.wf.child _)] at hnode
  exact h _ _ hnode

/-! ## The answer -/

/-- `userExists` answers as the run registered. -/
def Agrees (ops : List StoreOp) (db : Database) (email : String) : Prop :=
  AnswersTrue db email ↔ RegisteredIn ops email

/-- **`userExists` agrees with the registrations exactly where a string is stored if and only if the
email is registered.** In runs of accounts below the root, and for an email without slashes: exactly
when it is not registered. -/
theorem userExists_agrees_iff {ops : List StoreOp} {db : Database} (hrun : Succeeds .empty ops db)
    (email : String) :
    (Agrees ops db email ↔ (TextAt db email ↔ RegisteredIn ops email)) ∧
      ((∀ op ∈ ops, child op.accountKey ≠ some []) → '/' ∉ email.toList →
        (Agrees ops db email ↔ ¬ RegisteredIn ops email)) := by
  refine ⟨by rw [Agrees, answersTrue_iff], fun hroot hslash => ?_⟩
  have hno := (noTopLeaf_empty.run hroot hrun).not_textAt hslash
  rw [Agrees, answersTrue_iff]
  constructor
  · intro h hreg
    exact hno (h.2 hreg)
  · intro hreg
    exact iff_of_false hno hreg

/-- Ada registers. -/
theorem succeeds_registered : Succeeds .empty [.insertUser (twoUsers true)] registered :=
  ⟨[⟨.insertUser (twoUsers true), [], .ret true⟩], .cons rfl (.nil registered), rfl,
    List.forall_mem_singleton.2 rfl⟩

theorem userExists_agrees_omar :
    (Agrees [.insertUser (twoUsers true)] registered "omar@mail.com" ↔
        (TextAt registered "omar@mail.com" ↔
          RegisteredIn [.insertUser (twoUsers true)] "omar@mail.com")) ∧
      (Agrees [.insertUser (twoUsers true)] registered "omar@mail.com" ↔
        ¬ RegisteredIn [.insertUser (twoUsers true)] "omar@mail.com") := by
  obtain ⟨hall, htop⟩ := userExists_agrees_iff succeeds_registered "omar@mail.com"
  exact ⟨hall, htop (List.forall_mem_singleton.2 (by decide +kernel)) (by decide +kernel)⟩

/-- A registered user is answered as new. -/
theorem registered_user_denied :
    Succeeds .empty [.insertUser (twoUsers true)] registered ∧
      RegisteredIn [.insertUser (twoUsers true)] "ada@mail.com" ∧
      exec (DatabaseManager.userExists "ada@mail.com") registered [] = (registered, .ret false) ∧
      ¬ Agrees [.insertUser (twoUsers true)] registered "ada@mail.com" := by
  have hreg : RegisteredIn [.insertUser (twoUsers true)] "ada@mail.com" :=
    ⟨twoUsers true, .head _, rfl⟩
  have hanswer : exec (DatabaseManager.userExists "ada@mail.com") registered [] =
      (registered, .ret false) := rfl
  refine ⟨succeeds_registered, hreg, hanswer, fun h => ?_⟩
  have htrue := h.2 hreg
  rw [AnswersTrue, hanswer] at htrue
  cases htrue

end IChat
