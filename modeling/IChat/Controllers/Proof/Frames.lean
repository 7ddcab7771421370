import IChat.Controllers.Proof.Keys
import IChat.Manager.Proof.FailedConversations

/-!
# The nodes of the root

Accounts, the directory and conversations share the root. Their keys differ in shape: that of an
account has a dash and no space, that of a conversation has a space, `users` has neither. So each
operation stays at its own nodes, and a new conversation changes nothing but `conversations` in the
caller's node (`operations_stay`).
-/

namespace IChat

open Async Firebase SortedMap

/-! ## Keys -/

/-- The email has an `@`, no whitespace, and no character that `safeEmail` leaves illegal. -/
structure PlainEmail (email : String) : Prop where
  at_mem : '@' ∈ email.toList
  chars : ∀ c ∈ email.toList, c.isWhitespace = false ∧ c ∉ ['/', '#', '$', '[', ']']

/-- The printed date has a space and only legal characters. -/
structure PlainDate (date : String) : Prop where
  space_mem : ' ' ∈ date.toList
  legal : ∀ c ∈ date.toList, c ∉ ['.', '/', '#', '$', '[', ']']

/-- The id of the first message is built by `createRandomEMessageId` from such emails and date; the
recipient's is a safe email already, or not. -/
def HasBuiltId (req : ConversationRequest) : Prop :=
  ∃ (send : Send) (recipient : String),
    send.chat.otherUserEmail ∈ [recipient, safeEmail recipient] ∧
    PlainEmail recipient ∧ PlainEmail send.currentUser ∧
    PlainDate (send.dateFormatter.string send.idDate) ∧
    req.firstMessage.messageId = send.createRandomEMessageId

theorem PlainEmail.legal {email : String} (h : PlainEmail email) : LegalEmail email := by
  refine ⟨fun he => ?_, fun c hc => (h.chars c hc).2⟩
  have hmem := h.at_mem
  rw [he] at hmem
  cases hmem

theorem PlainEmail.isValidKey {email : String} (h : PlainEmail email) :
    Firebase.isValidKey (safeEmail email) = true :=
  isValidKey_safeEmail.2 h.legal

/-- A safe email has a dash where the email has its `@`. -/
theorem PlainEmail.dash_mem {email : String} (h : PlainEmail email) :
    '-' ∈ (safeEmail email).toList := by
  rw [toList_safeEmail]
  exact List.mem_map.2 ⟨'@', h.at_mem, rfl⟩

theorem PlainEmail.space_notMem {email : String} (h : PlainEmail email) :
    ' ' ∉ (safeEmail email).toList := by
  rw [toList_safeEmail, List.mem_map]
  intro hspace
  obtain ⟨c, hc, he⟩ := hspace
  split at he
  · exact absurd he (by decide)
  · rw [he] at hc
    exact absurd (h.chars _ hc).1 (by decide)

theorem PlainEmail.slash_notMem {email : String} (h : PlainEmail email) : '/' ∉ email.toList :=
  fun hslash => absurd (.head _) (h.chars _ hslash).2

theorem PlainEmail.slash_notMem_safeEmail {email : String} (h : PlainEmail email) :
    '/' ∉ (safeEmail email).toList :=
  (isValidKey_iff.1 h.isValidKey).2.1

theorem PlainEmail.ne_users {email : String} (h : PlainEmail email) :
    safeEmail email ≠ "users" := by
  intro he
  have hdash := h.dash_mem
  rw [he] at hdash
  revert hdash
  decide

namespace HasBuiltId

variable {req : ConversationRequest}

theorem space_mem (h : HasBuiltId req) : ' ' ∈ req.conversationKey.toList := by
  obtain ⟨send, recipient, -, -, -, hdate, hid⟩ := h
  rw [ConversationRequest.conversationKey, Message.conversationId, hid, Send.createRandomEMessageId]
  simp only [String.toList_append, List.mem_append]
  exact .inr (.inr hdate.space_mem)

theorem ne_users (h : HasBuiltId req) : req.conversationKey ≠ "users" := by
  intro he
  have hspace := h.space_mem
  rw [he] at hspace
  revert hspace
  decide

theorem ne_safeEmail (h : HasBuiltId req) {email : String} (hemail : PlainEmail email) :
    safeEmail email ≠ req.conversationKey := by
  intro he
  have hspace := h.space_mem
  rw [← he] at hspace
  exact hemail.space_notMem hspace

/-- Nothing that the key is made of has a slash. -/
theorem slash_notMem (h : HasBuiltId req) : '/' ∉ req.conversationKey.toList := by
  obtain ⟨send, recipient, hchat, hrecipient, huser, hdate, hid⟩ := h
  have hother : '/' ∉ send.chat.otherUserEmail.toList := by
    simp only [List.mem_cons, List.not_mem_nil, or_false] at hchat
    rcases hchat with hchat | hchat
    · rw [hchat]
      exact hrecipient.slash_notMem
    · rw [hchat]
      exact hrecipient.slash_notMem_safeEmail
  rw [ConversationRequest.conversationKey, Message.conversationId, hid, Send.createRandomEMessageId]
  simp only [String.toList_append, List.mem_append]
  intro hslash
  rcases hslash with hslash | (hslash | hslash) | hslash
  · revert hslash
    decide
  · exact hother hslash
  · exact huser.slash_notMem_safeEmail hslash
  · exact absurd (List.mem_of_elem_eq_true rfl) (hdate.legal '/' hslash)

end HasBuiltId

/-! ## Frames -/

/-- Whatever other clients do in between, the operations of the call change nothing outside of these
nodes. -/
def StaysAt (call : Call Bool) (nodes : List Path) : Prop :=
  ∀ (ι : Type) [DecidableEq ι] (c : Config ι Database Path Value Bool) (i : ι) (sched : List ι),
    (c.jobs i).prog = call → ∀ q : Path, (∀ p ∈ nodes, KeyTree.Apart p q) →
      ((c.run sched).step i).store.value q = (c.run sched).store.value q

/-- A call that reads and writes only at the nodes. -/
theorem staysAt_of_within {call : Call Bool} {F : Path → Prop} {nodes : List Path}
    (h : Within F (fun _ => True) call) (hF : ∀ p, F p → p ∈ nodes) : StaysAt call nodes := by
  intro ι _ c i sched hcall q hq
  have haway : Away Database q (fun _ => True) (c.jobs i).prog := by
    rw [hcall]
    exact h.mono (fun p hp => hq p (hF p hp)) fun _ => id
  exact Config.away_run_step haway sched

theorem insertUser_staysAt {user : ChatAppUser} (h : isValidKey user.safeEmail = true) :
    StaysAt (DatabaseManager.insertUser user) [[user.safeEmail], ["users"]] := by
  refine staysAt_of_within (DatabaseManager.insertUser_within user) fun p hp => ?_
  rcases hp with hp | rfl
  · rw [child_key h] at hp
    cases hp
    exact .head _
  · exact .tail _ (.head _)

theorem ConversationRequest.call_staysAt {req : ConversationRequest}
    (huser : isValidKey req.userKey = true) (hconv : '/' ∉ req.conversationKey.toList) :
    StaysAt req.call [[req.userKey], [req.conversationKey]] := by
  refine staysAt_of_within req.call_within fun p hp => ?_
  rcases hp with hp | hp
  · rw [child_key huser] at hp
    cases hp
    exact .head _
  · rw [child_single hconv hp]
    exact .tail _ (.head _)

/-- The whole-node write of the caller's node restores every field but `conversations`. -/
theorem value_appendConversation_ne {db : Database} {p : Path} {userNode : List (String × Value)}
    (hv : db.value p = .dict userNode) (entry : List (String × Value)) {k : String}
    (hk : k ≠ "conversations") (r : Path) :
    (db.setValue p (appendConversation entry (.dict userNode))).value (p ++ k :: r) =
      db.value (p ++ k :: r) := by
  have hbefore : db.root.get p = nodeFrom (.dict userNode) := by
    rw [← hv, db.nodeFrom_value]
  simp only [Database.value, Database.setValue, KeyTree.get_append, KeyTree.get_set_self, hbefore,
    KeyTree.get_cons]
  rw [appendConversation_dict]
  simp only [nodeFrom, child_dictChildren, find_insert_ne hk]

/-- Alone, a new conversation changes nothing in the caller's node but `conversations`. -/
theorem ConversationRequest.call_keeps_fields {req : ConversationRequest}
    (huser : isValidKey req.userKey = true) (hconv : '/' ∉ req.conversationKey.toList)
    (hne : req.userKey ≠ req.conversationKey) (db : Database) (o : List Bool) {k : String}
    (hk : k ≠ "conversations") (r : Path) :
    (exec req.call db o).1.value (req.userKey :: k :: r) = db.value (req.userKey :: k :: r) := by
  generalize hexec : exec req.call db o = result
  obtain ⟨db', r'⟩ := result
  rcases ConversationRequest.exec_call_cases hexec with ⟨rfl, -⟩ | ⟨p, userNode, hp, hv, hwrites⟩
  · rfl
  · rw [child_key huser] at hp
    cases hp
    have hfirst := value_appendConversation_ne hv req.entry hk r
    rcases hwrites with ⟨rfl, -⟩ | ⟨q, hq, rfl, -⟩
    · exact hfirst
    · obtain rfl := child_single hconv hq
      have hapart : KeyTree.Apart [req.conversationKey] (req.userKey :: k :: r) :=
        .inl (Ne.symm hne)
      rw [ConversationRequest.createdData, hv, Database.value_setValue_apart _ _ hapart]
      exact hfirst

/-- **The three kinds of nodes never collide, and each operation stays at its own**: in every
interleaving with other clients and for every outcome of its writes; and alone, a new conversation
changes nothing in the caller's node but `conversations`. -/
theorem operations_stay {user : ChatAppUser} {req : ConversationRequest}
    (huser : PlainEmail user.email) (hcaller : PlainEmail req.manager.userEmail)
    (hid : HasBuiltId req) :
    (user.safeEmail ≠ "users" ∧ user.safeEmail ≠ req.conversationKey ∧
      req.conversationKey ≠ "users") ∧
    StaysAt (DatabaseManager.insertUser user) [[user.safeEmail], ["users"]] ∧
    StaysAt req.call [[req.userKey], [req.conversationKey]] ∧
    ∀ (db : Database) (o : List Bool) (k : String) (r : Path), k ≠ "conversations" →
      (exec req.call db o).1.value (req.userKey :: k :: r) = db.value (req.userKey :: k :: r) := by
  refine ⟨⟨huser.ne_users, hid.ne_safeEmail huser, hid.ne_users⟩,
    insertUser_staysAt huser.isValidKey, req.call_staysAt hcaller.isValidKey hid.slash_notMem, ?_⟩
  intro db o k r hk
  have hne : req.userKey ≠ req.conversationKey := hid.ne_safeEmail hcaller
  exact req.call_keeps_fields hcaller.isValidKey hid.slash_notMem hne db o hk r

/-- Ada presses Send for the first time, in a chat with Omar. -/
def adaSendsOmar : Send where
  chat := ⟨safeEmail "omar@mail.com", none, true⟩
  dateFormatter := ⟨fun _ => "Jun 29, 2020 at 5:10:11 PM GMT+2"⟩
  idDate := 0
  sentDate := 0
  text := "hello"
  currentUser := "ada@mail.com"
  manager := ⟨"ada@mail.com"⟩

/-- Texts are checked by running through their characters. -/
theorem notMem_of_all {s : String} {illegal : List Char}
    (h : (s.toList.all fun c => !illegal.contains c) = true) : ∀ c ∈ s.toList, c ∉ illegal := by
  intro c hc hmem
  have hfree := List.all_eq_true.1 h c hc
  rw [List.contains_iff_mem.2 hmem] at hfree
  cases hfree

theorem plainEmail_of_all {email : String} (hat : email.toList.contains '@' = true)
    (hspace : (email.toList.all fun c => !c.isWhitespace) = true)
    (hlegal : (email.toList.all fun c => !(['/', '#', '$', '[', ']'].contains c)) = true) :
    PlainEmail email where
  at_mem := List.contains_iff_mem.1 hat
  chars c hc := ⟨by simpa using List.all_eq_true.1 hspace c hc, notMem_of_all hlegal c hc⟩

theorem plainEmail_ada : PlainEmail "ada@mail.com" :=
  plainEmail_of_all (by decide) (by decide) (by decide)

theorem plainEmail_omar : PlainEmail "omar@mail.com" :=
  plainEmail_of_all (by decide) (by decide) (by decide)

/-- The date that Ada's formatter prints. -/
theorem plainDate_ada : PlainDate "Jun 29, 2020 at 5:10:11 PM GMT+2" where
  space_mem := List.contains_iff_mem.1 (by decide)
  legal := notMem_of_all (by decide)

theorem operations_stay_adaSendsOmar :
    ((twoUsers false).safeEmail ≠ "users" ∧
      (twoUsers false).safeEmail ≠ adaSendsOmar.request.conversationKey ∧
      adaSendsOmar.request.conversationKey ≠ "users") ∧
    StaysAt (DatabaseManager.insertUser (twoUsers false))
      [[(twoUsers false).safeEmail], ["users"]] ∧
    StaysAt adaSendsOmar.request.call
      [[adaSendsOmar.request.userKey], [adaSendsOmar.request.conversationKey]] ∧
    ∀ (db : Database) (o : List Bool) (k : String) (r : Path), k ≠ "conversations" →
      (exec adaSendsOmar.request.call db o).1.value (adaSendsOmar.request.userKey :: k :: r) =
        db.value (adaSendsOmar.request.userKey :: k :: r) :=
  operations_stay plainEmail_omar plainEmail_ada
    ⟨adaSendsOmar, "omar@mail.com", .tail _ (.head _), plainEmail_omar, plainEmail_ada,
      plainDate_ada, rfl⟩

end IChat
