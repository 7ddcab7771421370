import IChat.Async.Proof.Guarantee
import IChat.Manager.Account
import IChat.Manager.Proof.Interference

/-!
# Accounts and each other's nodes

A call of an account stays at its node, the directory and the conversation it creates. So accounts
with different keys do not reach each other's nodes, and what is listed for an account comes from
its own calls, in every interleaving (`accounts_isolated`). Accounts with one key share everything
(`accounts_not_isolated`).
-/

namespace IChat

open Async Firebase SortedMap

variable {ι : Type}

/-! ## Entries and conversations -/

/-- The conversation that a request creates. -/
def ConversationRequest.conversation (req : ConversationRequest) : Conversation where
  id := req.conversationKey
  name := req.otherUserName
  otherUserEmail := req.otherUserEmail
  latestMessage :=
    { date := req.dateFormatter.string req.firstMessage.sentDate
      text := req.firstMessage.kind.sentMessage
      isRead := false }

/-- **The decoder reads what the encoder writes**. -/
theorem ofDictionary_entry (req : ConversationRequest) :
    Conversation.ofDictionary req.entry = some req.conversation := rfl

/-- The conversations shown for a value: none when it cannot be read. -/
def listed (value : Value) : List Conversation :=
  match conversationsOf value with
  | .ok conversations => conversations
  | .error _ => []

theorem listed_eq (value : Value) :
    listed value = (value.asDictArray.getD []).filterMap Conversation.ofDictionary := by
  unfold listed conversationsOf
  cases value.asDictArray <;> rfl

theorem listed_append (value : Value) (req : ConversationRequest) :
    listed (.ofDictArray (value.asDictArray.getD [] ++ [req.entry])) =
      listed value ++ [req.conversation] := by
  rw [listed_eq, listed_eq, Value.asDictArray_eq_some.2 rfl, Option.getD_some,
    List.filterMap_append]
  simp only [List.filterMap_cons, ofDictionary_entry, List.filterMap_nil]

/-- What is listed after the caller's node is written with one more entry. -/
theorem listed_setValue {userNode : List (String × Value)} (h : Canonical (.dict userNode))
    (db : Database) (p : Path) (req : ConversationRequest) :
    listed ((db.setValue p (appendConversation req.entry (.dict userNode))).value
        (p ++ ["conversations"])) =
      listed (conversationsField (.dict userNode)) ++ [req.conversation] := by
  have hfield := conversationsField_append req.entry userNode
  rw [appendConversation_dict] at hfield ⊢
  rw [conversationsField] at hfield
  rw [Database.value_setValue_field, hfield,
    canonical_append (canonical_conversationsField h) (canonical_entry req)]
  exact listed_append (conversationsField (.dict userNode)) req

/-! ## The footprint of an account's call -/

/-- The paths of a call: the account's node, the directory, and the conversation created. -/
def Account.CallAt (account : Account) (op : Operation) (p : Path) : Prop :=
  p = [account.key] ∨ p = [account.key, "conversations"] ∨ p = ["users"] ∨
    ∃ key, op.conversationKey = some key ∧ child key = some p

theorem Account.call_within (account : Account) (op : Operation) :
    Within (account.CallAt op) (fun _ => True) (account.call op) := by
  cases op with
  | insertUser firstName lastName =>
    rw [call]
    refine Within.map ((DatabaseManager.insertUser_within (account.user firstName lastName)).mono
      (fun p hp => ?_) fun _ => id) fun _ => id
    rcases hp with hp | hp
    · exact .inl (Option.some.inj (hp.symm.trans account.child_key))
    · exact .inr (.inr (.inl hp))
  | createNewConversation dateFormatter otherUserEmail otherUserName firstMessage =>
    rw [call]
    refine Within.map ((account.request dateFormatter otherUserEmail otherUserName
      firstMessage).call_within.mono (fun p hp => ?_) fun _ => id) fun _ => id
    rcases hp with hp | hp
    · exact .inl (Option.some.inj (hp.symm.trans account.child_key))
    · exact .inr (.inr (.inr ⟨_, rfl, hp⟩))
  | getAllConversation =>
    rw [call, DatabaseManager.getAllConversation]
    refine Within.map (R := fun _ => True) (within_atChild fun p hp => ?_) fun _ => id
    rw [account.child_conversations] at hp
    cases hp
    exact .read (.inr (.inl rfl)) fun v => .ret trivial

/-- A call of an account with another key, that creates no conversation inside the node, is away
from the node. -/
theorem Account.call_away {a b : Account} (hkey : a.key ≠ b.key) {op : Operation}
    (hconv : ∀ key, op.conversationKey = some key → KeysApart key b.key) :
    Away Database [b.key] (fun _ => True) (a.call op) := by
  refine (a.call_within op).mono (fun p hp => ?_) fun _ => id
  rcases hp with rfl | rfl | rfl | ⟨key, hop, hp⟩
  · exact .inl hkey
  · exact .inl hkey
  · exact .inl (Ne.symm b.key_ne_users)
  · exact hconv key hop p _ hp b.child_key

/-! ## Where the listed conversations come from -/

/-- The conversation was listed at the start or is created by one of the account's calls. -/
def Own (start : Value) (calls : ι → Account × Operation) (b : Account) (conv : Conversation) :
    Prop :=
  conv ∈ listed start ∨ ∃ i dateFormatter otherUserEmail otherUserName firstMessage,
    (calls i).1.email = b.email ∧
    (calls i).2 = .createNewConversation dateFormatter otherUserEmail otherUserName firstMessage ∧
    conv = (b.request dateFormatter otherUserEmail otherUserName firstMessage).conversation

section
variable {b : Account} {P : Conversation → Prop}

/-- Everything listed for the account satisfies `P`. -/
def Lists (b : Account) (P : Conversation → Prop) (db : Database) : Prop :=
  ∀ conv ∈ listed (db.value ([b.key] ++ ["conversations"])), P conv

theorem Lists.setValue_apart {db : Database} (h : Lists b P db) {p : Path}
    (hp : KeyTree.Apart p [b.key]) (v : Value) : Lists b P (db.setValue p v) := by
  unfold Lists
  rw [db.value_setValue_apart v (hp.append ["conversations"])]
  exact h

/-- A call that never touches the node keeps what is listed. -/
theorem keeps_of_away {ρ : Type} {R : ρ → Prop} {q : Call ρ} (h : Away Database [b.key] R q) :
    Keeps (Lists b P) R q :=
  h.keeps fun _ _ v hp hs => hs.setValue_apart hp v

theorem keeps_setValue {p : Path} {v : Value} {k : Call Bool}
    (h : ∀ db, Lists b P db → Lists b P (db.setValue p v))
    (hk : Keeps (Lists b P) (fun _ => True) k) :
    Keeps (Lists b P) (fun _ => True) (setValue p v k) := by
  refine .write h fun ok => ?_
  cases ok
  · exact .ret trivial
  · exact hk

theorem keeps_insertUser (firstName lastName : String) :
    Keeps (Lists b P) (fun _ => True)
      (DatabaseManager.insertUser (b.user firstName lastName)) := by
  have hkey : child (b.user firstName lastName).safeEmail = some [b.key] := b.child_key
  rw [DatabaseManager.insertUser_eq, atChild, hkey]
  refine keeps_setValue (fun db _ conv hconv => ?_) ?_
  · -- the new node has no conversations
    rw [Value.ofStringDict, Database.value_setValue_field] at hconv
    cases hconv
  · refine .read fun s _ => keeps_setValue (fun db hdb => ?_) (.ret trivial)
    exact hdb.setValue_apart (KeyTree.apart_singleton.2 (Ne.symm b.key_ne_users)) _

theorem keeps_create (dateFormatter : DateFormatter) (otherUserEmail otherUserName : String)
    (firstMessage : Message) (hconv : KeysApart firstMessage.conversationId b.key)
    (hP : P (b.request dateFormatter otherUserEmail otherUserName firstMessage).conversation) :
    Keeps (Lists b P) (fun _ => True)
      (b.request dateFormatter otherUserEmail otherUserName firstMessage).call := by
  have hkey : child (safeEmail b.email) = some [b.key] := b.child_key
  unfold ConversationRequest.call
  rw [DatabaseManager.createNewConversation_eq]
  simp only [Account.request, atChild, hkey]
  refine .read fun s hs => ?_
  have hc := s.canonical_value [b.key]
  rw [mem_get]
  cases hv : s.value [b.key] with
  | dict userNode =>
    rw [hv] at hc
    refine keeps_setValue (fun db _ conv hm => ?_) (keeps_of_away ?_)
    · change conv ∈ listed ((db.setValue [b.key] (appendConversation
        (b.request dateFormatter otherUserEmail otherUserName firstMessage).entry
        (.dict userNode))).value _) at hm
      rw [listed_setValue hc] at hm
      rcases List.mem_append.1 hm with hm | hm
      · -- listed when the call read the node
        refine hs conv ?_
        rw [Database.value_field hv "conversations"]
        exact hm
      · rw [List.mem_singleton.1 hm]; exact hP
    · exact (DatabaseManager.finishCreateConversation_within _ _ _ _).mono
        (fun p hp => hconv p _ hp b.child_key) fun _ => id
  | null | leaf | arr => exact .ret trivial

/-- What `getAllConversation` answers satisfies `P`. -/
theorem keeps_getAllConversation :
    Keeps (Lists b P) (fun result => ∀ cs, result = .ok cs → ∀ conv ∈ cs, P conv)
      (DatabaseManager.getAllConversation b.key) := by
  rw [DatabaseManager.getAllConversation, atChild, b.child_conversations]
  refine .read fun s hs => .ret fun cs hcs conv hm => hs conv ?_
  change conversationsOf (s.value ([b.key] ++ ["conversations"])) = _ at hcs
  rw [listed, hcs]
  exact hm

/-- A call of any account, if it creates no conversation inside the node. -/
theorem keeps_call {a : Account} {op : Operation} (hkey : a.email ≠ b.email → a.key ≠ b.key)
    (hconv : ∀ key, op.conversationKey = some key → KeysApart key b.key)
    (hP : ∀ dateFormatter otherUserEmail otherUserName firstMessage, a.email = b.email →
      op = .createNewConversation dateFormatter otherUserEmail otherUserName firstMessage →
      P (b.request dateFormatter otherUserEmail otherUserName firstMessage).conversation) :
    Keeps (Lists b P) (fun answer => a.email = b.email →
      ∀ cs, answer = .conversations (.ok cs) → ∀ conv ∈ cs, P conv) (a.call op) := by
  by_cases hab : a.email = b.email
  · obtain rfl := Account.ext hab
    cases op with
    | insertUser firstName lastName =>
      rw [Account.call]
      exact (keeps_insertUser firstName lastName).map fun _ _ _ _ => nofun
    | createNewConversation dateFormatter otherUserEmail otherUserName firstMessage =>
      rw [Account.call]
      exact (keeps_create dateFormatter otherUserEmail otherUserName firstMessage
        (hconv _ rfl) (hP _ _ _ _ rfl rfl)).map fun _ _ _ _ => nofun
    | getAllConversation =>
      rw [Account.call]
      exact keeps_getAllConversation.map fun result h _ cs hcs =>
        h cs (Answer.conversations.inj hcs)
  · exact keeps_of_away ((Account.call_away (hkey hab) hconv).mono (fun _ => id)
      fun _ _ h => absurd h hab)

end

/-- **Accounts are isolated from an account whose key is its own.** In every state of every run, no
call of another account changes the account's node, and every conversation that is listed for the
account, or that its `getAllConversation` has returned, was listed at the start or created by the
account. -/
theorem accounts_isolated [DecidableEq ι] {calls : ι → Account × Operation} (db : Database)
    (fates : ι → List Bool) (b : Account)
    (hkey : ∀ i, (calls i).1.email ≠ b.email → (calls i).1.key ≠ b.key)
    (hconv : ∀ i key, (calls i).2.conversationKey = some key → KeysApart key b.key)
    (sched : List ι) :
    let c := (accountCalls db calls fates).run sched
    let own := Own (db.value [b.key, "conversations"]) calls b
    (∀ i, (calls i).1.email ≠ b.email →
        (c.step i).store.value [b.key] = c.store.value [b.key]) ∧
      (∀ conv ∈ listed (c.store.value [b.key, "conversations"]), own conv) ∧
      ∀ i cs, (calls i).1.email = b.email → (c.jobs i).prog = .ret (.conversations (.ok cs)) →
        ∀ conv ∈ cs, own conv := by
  intro c own
  have haway : ∀ i, (calls i).1.email ≠ b.email →
      Away Database [b.key] (fun _ => True) ((accountCalls db calls fates).jobs i).prog :=
    fun i hi => by
      rw [accountCalls_prog]
      exact Account.call_away (hkey i hi) (hconv i)
  have hkeeps : ∀ i, Keeps (Lists b own) (fun answer => (calls i).1.email = b.email →
      ∀ cs, answer = .conversations (.ok cs) → ∀ conv ∈ cs, own conv)
      ((accountCalls db calls fates).jobs i).prog := fun i => by
    rw [accountCalls_prog]
    refine keeps_call (hkey i) (hconv i) fun dateFormatter otherUserEmail otherUserName
      firstMessage hab hop => ?_
    exact .inr ⟨i, dateFormatter, otherUserEmail, otherUserName, firstMessage, hab, hop, rfl⟩
  obtain ⟨hlists, hall⟩ := Config.keeps_run (fun conv hm => .inl hm) hkeeps sched
  refine ⟨fun i hi => ?_, hlists, fun i cs hi hr => ?_⟩
  · have h := Config.within_run
      (F := fun j p => (calls j).1.email ≠ b.email → Mem.Apart Database p [b.key])
      (R := fun _ _ => True) (c := accountCalls db calls fates) (fun j => ?_) sched i
    · exact Away.get_step (h.mono (fun p hp => hp hi) fun _ => id) c.store
    · by_cases hj : (calls j).1.email = b.email
      · rw [accountCalls_prog]
        exact (((calls j).1.call_within (calls j).2)).mono (fun _ _ h => absurd hj h) fun _ => id
      · exact (haway j hj).mono (fun _ hp _ => hp) fun _ => id
  · have := hall i
    rw [hr] at this
    exact this.answer hi cs rfl

/-- Two accounts with different keys: one registers and creates a conversation while the other
registers. -/
def separateCalls : Bool → Account × Operation
  | true => (⟨"omar@mail.com", by decide, Account.legal_of_all (by decide)⟩, .insertUser "Omar" "Adel")
  | false => (⟨"ada@mail.com", by decide, Account.legal_of_all (by decide)⟩,
      .createNewConversation ⟨toString⟩ "omar-mail-com" "Omar Adel" ⟨"first", 0, .text "hello"⟩)

theorem accounts_isolated_separate :
    let c := (accountCalls registered separateCalls fun _ => []).run [false, true, false, true]
    let b := (separateCalls true).1
    let own := Own (registered.value [b.key, "conversations"]) separateCalls b
    (∀ i, (separateCalls i).1.email ≠ b.email →
        (c.step i).store.value [b.key] = c.store.value [b.key]) ∧
      (∀ conv ∈ listed (c.store.value [b.key, "conversations"]), own conv) ∧
      ∀ i cs, (separateCalls i).1.email = b.email →
        (c.jobs i).prog = .ret (.conversations (.ok cs)) → ∀ conv ∈ cs, own conv :=
  accounts_isolated registered (fun _ => []) (separateCalls true).1 (by decide +kernel)
    (fun i key h => by
      cases i <;> cases h
      exact (keysApart_iff (by decide +kernel) (separateCalls true).1.child_key).2
        (by decide +kernel)) _

/-- Two accounts with one key. The first registers and creates a conversation, the second looks at
its list and registers. -/
def sharedKeyCalls : Fin 4 → Account × Operation
  | 0 => (⟨"a.b@mail.com", by decide, Account.legal_of_all (by decide)⟩, .insertUser "Ada" "Said")
  | 1 => (⟨"a.b@mail.com", by decide, Account.legal_of_all (by decide)⟩,
      .createNewConversation ⟨toString⟩ "omar-mail-com" "Omar Adel" ⟨"first", 0, .text "hello"⟩)
  | 2 => (⟨"a-b@mail.com", by decide, Account.legal_of_all (by decide)⟩, .getAllConversation)
  | 3 => (⟨"a-b@mail.com", by decide, Account.legal_of_all (by decide)⟩, .insertUser "Amir" "Badr")

/-- The second account is shown the conversation of the first, and its registration erases the
node of the first. -/
theorem accounts_not_isolated :
    let c := (accountCalls .empty sharedKeyCalls fun _ => []).run [0, 0, 0, 1, 1, 1, 2]
    let a := (sharedKeyCalls 0).1
    let b := (sharedKeyCalls 3).1
    a.email ≠ b.email ∧
      (∃ conv, (c.jobs 2).prog = .ret (.conversations (.ok [conv])) ∧
        ¬ Own (Database.empty.value [b.key, "conversations"]) sharedKeyCalls b conv) ∧
      (c.step 3).store.value [a.key] ≠ c.store.value [a.key] := by
  refine ⟨by decide +kernel, ⟨⟨"conversation_first", "Omar Adel", "omar-mail-com", "0", "hello",
    false⟩, Prog.answer_eq_some.1 (by decide +kernel), ?_⟩, fun h => ?_⟩
  · rw [Database.value_empty]
    rintro (h | ⟨i, _, _, _, _, he, hop, -⟩)
    · cases h
    · match i with
      | 0 | 2 | 3 => cases hop
      | 1 => exact absurd he (by decide +kernel)
  · have hlen := congrArg (fun v => (entries (conversationsField v)).length) h
    revert hlen
    decide +kernel

end IChat
