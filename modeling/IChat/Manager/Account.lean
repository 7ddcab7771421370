import IChat.Manager.Runs

/-!
# Accounts

An `Account` is an email with one `@` and none of the characters that Firebase refuses in a key or
that split a path, apart from the dots that `safeEmail` replaces. Its `key` is a legal key and not
`users`. The calls of an account are what the application issues while that account is signed in.
-/

namespace IChat

open Async Firebase

structure Account where
  email : String
  count_at : email.toList.count '@' = 1
  legal : ∀ c ∈ email.toList, c ∉ ['/', '#', '$', '[', ']']

namespace Account

theorem ext {a b : Account} (h : a.email = b.email) : a = b := by
  cases a; cases b; cases h; rfl

/-- Legality is checked by running through the characters. -/
theorem legal_of_all {email : String}
    (h : (email.toList.all fun c => !(['/', '#', '$', '[', ']'].contains c)) = true) :
    ∀ c ∈ email.toList, c ∉ ['/', '#', '$', '[', ']'] := fun c hc hm => by
  have := List.all_eq_true.1 h c hc
  rw [List.contains_iff_mem.2 hm] at this
  cases this

/-- The key of the account's node. -/
def key (account : Account) : String := safeEmail account.email

end Account

/-- What an account calls, with the arguments that are not its email. -/
inductive Operation where
  | insertUser (firstName lastName : String)
  | createNewConversation (dateFormatter : DateFormatter) (otherUserEmail otherUserName : String)
    (firstMessage : Message)
  | getAllConversation

/-- What a call passes to its completion. -/
inductive Answer where
  | done (success : Bool)
  | conversations (result : Except DatabaseError (List Conversation))
  deriving DecidableEq

/-- The key at which a call writes a conversation. -/
def Operation.conversationKey : Operation → Option String
  | .createNewConversation _ _ _ firstMessage => some firstMessage.conversationId
  | _ => none

namespace Account

def user (account : Account) (firstName lastName : String) : ChatAppUser :=
  ⟨firstName, lastName, account.email⟩

def request (account : Account) (dateFormatter : DateFormatter)
    (otherUserEmail otherUserName : String) (firstMessage : Message) : ConversationRequest :=
  ⟨⟨account.email⟩, dateFormatter, otherUserEmail, otherUserName, firstMessage⟩

/-- A call made by the account. -/
def call (account : Account) : Operation → Call Answer
  | .insertUser firstName lastName =>
    (DatabaseManager.insertUser (account.user firstName lastName)).map .done
  | .createNewConversation dateFormatter otherUserEmail otherUserName firstMessage =>
    (account.request dateFormatter otherUserEmail otherUserName firstMessage).call.map .done
  | .getAllConversation => (DatabaseManager.getAllConversation account.key).map .conversations

end Account

variable {ι : Type}

/-- Calls made by accounts. -/
def accountCalls (db : Database) (calls : ι → Account × Operation) (fates : ι → List Bool) :
    Config ι Database Path Value Answer where
  store := db
  jobs i := { prog := (calls i).1.call (calls i).2, fate := fates i }

theorem accountCalls_prog (db : Database) (calls : ι → Account × Operation)
    (fates : ι → List Bool) (i : ι) :
    ((accountCalls db calls fates).jobs i).prog = (calls i).1.call (calls i).2 := by
  simp only [accountCalls]

/-! ## The key -/

theorem toList_safeEmail (email : String) :
    (safeEmail email).toList = email.toList.map fun c => if c = '.' ∨ c = '@' then '-' else c := by
  simp only [safeEmail, replacingOccurrences, String.toList_ofList, List.map_map]
  refine List.map_congr_left fun c _ => ?_
  by_cases hc : c = '.'
  · subst hc; decide
  · simp [hc]

namespace Account

variable (account : Account)

theorem dash_mem_key : '-' ∈ account.key.toList := by
  have hat : '@' ∈ account.email.toList :=
    List.count_pos_iff.1 (by rw [account.count_at]; exact Nat.one_pos)
  rw [key, toList_safeEmail]
  exact List.mem_map.2 ⟨'@', hat, by decide⟩

theorem isValidKey_key : isValidKey account.key = true := by
  have hne : account.key ≠ "" := fun he => by
    have := account.dash_mem_key
    rw [he] at this; cases this
  simp only [isValidKey, Bool.and_eq_true, bne_iff_ne, ne_eq, hne, not_false_eq_true,
    List.all_eq_true, true_and]
  intro c hc
  rw [key, toList_safeEmail] at hc
  obtain ⟨d, hd, rfl⟩ := List.mem_map.1 hc
  have hlegal := account.legal d hd
  split
  · decide
  · rename_i hne
    obtain ⟨hdot, -⟩ := not_or.1 hne
    simp only [List.mem_cons, not_or] at hlegal
    obtain ⟨hslash, hhash, hdollar, hopen, hclose, hnil⟩ := hlegal
    simp only [kInvalidKeyCharacters, List.contains_eq_mem, List.mem_cons, Bool.not_eq_true',
      decide_eq_false_iff_not, not_or]
    exact ⟨hopen, hclose, hdot, hhash, hdollar, hslash, hnil⟩

theorem child_key : child account.key = some [account.key] :=
  Firebase.child_key account.isValidKey_key

theorem key_ne_users : account.key ≠ "users" := fun he => by
  have := account.dash_mem_key
  rw [he] at this
  exact absurd this (by decide)

theorem child_conversations :
    child (account.key ++ "/conversations") = some [account.key, "conversations"] := by
  have happ : account.key ++ "/conversations" = account.key ++ "/" ++ "conversations" := by
    rw [String.append_assoc]; rfl
  rw [happ]
  exact child_key_field account.isValidKey_key (by decide)

theorem keysApart_iff {a b : Account} : KeysApart a.key b.key ↔ a.key ≠ b.key :=
  Firebase.keysApart_iff a.child_key b.child_key

end Account

end IChat
