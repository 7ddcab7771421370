import IChat.Manager.Runs

/-!
# The abstract chat store

What the database is for, without trees and keys: the registered users in order, and the
conversations created in order. `Admits` says which calls a run of the application may make next:
a new user or conversation under a key of its own, a conversation only by a registered user.
-/

namespace IChat

open Async Firebase

/-- A writing call. -/
inductive StoreOp where
  | insertUser (user : ChatAppUser)
  | createNewConversation (req : ConversationRequest)

def StoreOp.call : StoreOp → Call Bool
  | .insertUser user => DatabaseManager.insertUser user
  | .createNewConversation req => req.call

/-- Calls that run one after the other, and all complete with `true`. -/
def Succeeds (db : Database) (ops : List StoreOp) (db' : Database) : Prop :=
  ∃ hist, InTurn StoreOp.call db hist db' ∧ hist.map Done.arg = ops ∧
    ∀ d ∈ hist, d.outcome = .ret true

structure ChatStore where
  users : List ChatAppUser
  requests : List ConversationRequest

namespace ChatStore

def empty : ChatStore := ⟨[], []⟩

def apply (a : ChatStore) : StoreOp → ChatStore
  | .insertUser user => { a with users := a.users ++ [user] }
  | .createNewConversation req => { a with requests := a.requests ++ [req] }

def run (a : ChatStore) (ops : List StoreOp) : ChatStore := ops.foldl apply a

/-- The conversations a user created. -/
def created (a : ChatStore) (user : ChatAppUser) : List ConversationRequest :=
  a.requests.filter fun req => req.manager.userEmail = user.email

/-- A legal key that nothing is stored at. -/
structure Fresh (a : ChatStore) (key : String) : Prop where
  legal : isValidKey key = true
  ne_users : key ≠ "users"
  ne_user : ∀ user ∈ a.users, user.safeEmail ≠ key
  ne_conversation : ∀ req ∈ a.requests, req.conversationKey ≠ key

/-- The call may come next. -/
def Admits (a : ChatStore) : StoreOp → Prop
  | .insertUser user => a.Fresh user.safeEmail
  | .createNewConversation req =>
    a.Fresh req.conversationKey ∧ ∃ user ∈ a.users, user.email = req.manager.userEmail

def AdmitsAll : ChatStore → List StoreOp → Prop
  | _, [] => True
  | a, op :: ops => a.Admits op ∧ (a.apply op).AdmitsAll ops

/-- Keys are legal and identify what they belong to, and conversations have registered callers. -/
structure Valid (a : ChatStore) : Prop where
  user_legal : ∀ user ∈ a.users, isValidKey user.safeEmail = true ∧ user.safeEmail ≠ "users"
  conversation_legal : ∀ req ∈ a.requests,
    isValidKey req.conversationKey = true ∧ req.conversationKey ≠ "users"
  user_unique : ∀ user ∈ a.users, ∀ user' ∈ a.users, user.safeEmail = user'.safeEmail → user = user'
  apart : ∀ user ∈ a.users, ∀ req ∈ a.requests, user.safeEmail ≠ req.conversationKey
  caller : ∀ req ∈ a.requests, ∃ user ∈ a.users, user.email = req.manager.userEmail

/-- **Admitted calls keep the store valid**. -/
theorem Valid.apply {a : ChatStore} (h : a.Valid) {op : StoreOp} (hop : a.Admits op) :
    (a.apply op).Valid := by
  cases op with
  | insertUser user =>
    obtain ⟨hlegal, hne, hnu, hnc⟩ := hop
    have hsplit : ∀ {u}, u ∈ (a.apply (.insertUser user)).users → u ∈ a.users ∨ u = user :=
      fun hu => (List.mem_append.1 hu).imp id List.mem_singleton.1
    refine ⟨fun u hu => ?_, h.conversation_legal, fun u hu u' hu' he => ?_, fun u hu req hr => ?_,
      fun req hr => ?_⟩
    · rcases hsplit hu with hu | rfl
      · exact h.user_legal u hu
      · exact ⟨hlegal, hne⟩
    · rcases hsplit hu with h1 | rfl <;> rcases hsplit hu' with h2 | rfl
      · exact h.user_unique u h1 u' h2 he
      · exact absurd he (hnu u h1)
      · exact absurd he.symm (hnu u' h2)
      · rfl
    · rcases hsplit hu with hu | rfl
      · exact h.apart u hu req hr
      · exact Ne.symm (hnc req hr)
    · obtain ⟨u, hu, he⟩ := h.caller req hr
      exact ⟨u, List.mem_append_left _ hu, he⟩
  | createNewConversation req =>
    obtain ⟨⟨hlegal, hne, hnu, hnc⟩, hcaller⟩ := hop
    have hsplit : ∀ {r}, r ∈ (a.apply (.createNewConversation req)).requests →
        r ∈ a.requests ∨ r = req :=
      fun hr => (List.mem_append.1 hr).imp id List.mem_singleton.1
    refine ⟨h.user_legal, fun r hr => ?_, h.user_unique, fun u hu r hr => ?_, fun r hr => ?_⟩
    · rcases hsplit hr with hr | rfl
      · exact h.conversation_legal r hr
      · exact ⟨hlegal, hne⟩
    · rcases hsplit hr with hr | rfl
      · exact h.apart u hu r hr
      · exact hnu u hu
    · rcases hsplit hr with hr | rfl
      · exact h.caller r hr
      · exact hcaller

end ChatStore

end IChat
