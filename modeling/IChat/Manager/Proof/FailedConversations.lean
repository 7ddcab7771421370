import IChat.Manager.Proof.Refinement

/-!
# New conversations that fail

`createNewConversation` writes the caller's node and then the conversation's, and nothing undoes the
first write. A call that completes with `false` has changed nothing, or its second write failed and
its entry is in the caller's list (`ConversationRequest.exec_call_cases`). Over every history of
calls that run one after the other, every entry whose call completed with `true` has its message
(`entries_hold`).
-/

namespace IChat

open Async Firebase SortedMap

/-- The read and the first write succeed and the second write fails. -/
def SecondWriteFails (o : List Bool) : Prop :=
  o.headD true = true ∧ o.tail.headD true = true ∧ o.tail.tail.headD true = false

/-- What a call of `createNewConversation` that ran alone can have done: nothing; or only the first
write; or both. -/
theorem ConversationRequest.exec_call_cases {req : ConversationRequest} {db db' : Database}
    {o : List Bool} {r : Call Bool} (h : exec req.call db o = (db', r)) :
    (db' = db ∧ r ≠ .ret true) ∨
      ∃ p userNode, child req.userKey = some p ∧ db.value p = .dict userNode ∧
        ((db' = db.setValue p (appendConversation req.entry (.dict userNode)) ∧
            (r = .raise ∨ r = .ret false ∧ SecondWriteFails o)) ∨
          ∃ q, child req.conversationKey = some q ∧ db' = req.createdData db p q ∧
            r = .ret true) := by
  cases hp : child req.userKey with
  | none =>
    have hraise : exec req.call db o = (db, .raise) := by
      unfold ConversationRequest.call
      rw [DatabaseManager.createNewConversation_eq]
      change child (safeEmail req.manager.userEmail) = none at hp
      simp only [atChild, hp, exec]
    rw [hraise] at h
    cases h
    exact .inl ⟨rfl, fun h => by cases h⟩
  | some p =>
    cases hd : (db.value p).asDict with
    | none =>
      rw [exec_call_unregistered hp hd] at h
      obtain ⟨rfl, rfl⟩ := Prod.mk.inj h
      exact .inl ⟨rfl, by split <;> intro h <;> cases h⟩
    | some userNode =>
      have hv := Value.asDict_eq_some.1 hd
      rw [exec_call hp (by rw [hd]; rfl), hv] at h
      split at h
      · rename_i h0
        split at h
        · rename_i h1
          refine .inr ⟨p, userNode, rfl, hv, ?_⟩
          cases hq : child req.conversationKey with
          | none =>
            rw [hq] at h
            obtain ⟨rfl, rfl⟩ := Prod.mk.inj h
            exact .inl ⟨rfl, .inl rfl⟩
          | some q =>
            rw [hq] at h
            simp only at h
            split at h
            · obtain ⟨rfl, rfl⟩ := Prod.mk.inj h
              exact .inr ⟨q, rfl, rfl, rfl⟩
            · rename_i h2
              obtain ⟨rfl, rfl⟩ := Prod.mk.inj h
              exact .inl ⟨rfl, .inr ⟨rfl, h0, h1, by simpa using h2⟩⟩
        · obtain ⟨rfl, rfl⟩ := Prod.mk.inj h
          exact .inl ⟨rfl, fun h => by cases h⟩
      · obtain ⟨rfl, rfl⟩ := Prod.mk.inj h
        exact .inl ⟨rfl, fun h => by cases h⟩

/-! ## Entries and messages -/

/-- A call of `createNewConversation` that ran alone. -/
abbrev Creation := Done ConversationRequest Path Value Bool

/-- Every entry of every list comes from one of the calls; when the call completed with `true`, its
message is at the conversation's node. -/
def EntriesHold (ds : List Creation) (db : Database) : Prop :=
  ∀ key, ∀ x ∈ conversationList db [key], ∃ d ∈ ds, d.arg.userKey = key ∧ x = .dict d.arg.entry ∧
    (d.outcome = .ret true → HoldsMessage d.arg (db.value [d.arg.conversationKey]))

/-- The entries after an append are the new one and at most those before. -/
theorem mem_entries_append {req : ConversationRequest} {userNode : List (String × Value)}
    (h : Canonical (.dict userNode)) {x : Value}
    (hx : x ∈ entries (conversationsField (stored (appendConversation req.entry (.dict userNode))))) :
    x ∈ entries (conversationsField (.dict userNode)) ∨ x = .dict req.entry := by
  rw [stored_appendConversation h (canonical_entry req), conversationsField_append,
    entries_ofDictArray, List.map_append] at hx
  rcases List.mem_append.1 hx with hx | hx
  · cases hc : (conversationsField (.dict userNode)).asDictArray with
    | none => rw [hc] at hx; cases hx
    | some ds =>
      rw [hc] at hx
      rw [Value.asDictArray_eq_some.1 hc, entries_ofDictArray]
      exact .inl hx
  · exact .inr (List.mem_singleton.1 hx)

/-- Appending an entry leaves a message that is in the same node. -/
theorem HoldsMessage.append {req : ConversationRequest} {userNode : List (String × Value)}
    (h : HoldsMessage req (.dict userNode)) (hc : Canonical (.dict userNode))
    {entry : List (String × Value)} (he : Canonical (.dict entry)) :
    HoldsMessage req (stored (appendConversation entry (.dict userNode))) := by
  rw [stored_appendConversation hc he, appendConversation_dict]
  unfold HoldsMessage at h ⊢
  rw [Value.field_dict] at h ⊢
  rwa [find_insert_ne (by decide)]

section
variable {ds : List Creation} {db : Database} {d : Creation} {userNode : List (String × Value)}

/-- After the first write, every entry is one of those before, with its message, or the new one. -/
theorem EntriesHold.first (h : EntriesHold ds db)
    (hv : db.value [d.arg.userKey] = .dict userNode) {key : String} {x : Value}
    (hx : x ∈ conversationList (db.setValue [d.arg.userKey]
      (appendConversation d.arg.entry (.dict userNode))) [key]) :
    (∃ e ∈ ds, e.arg.userKey = key ∧ x = .dict e.arg.entry ∧
      (e.outcome = .ret true → HoldsMessage e.arg ((db.setValue [d.arg.userKey]
        (appendConversation d.arg.entry (.dict userNode))).value [e.arg.conversationKey]))) ∨
      (d.arg.userKey = key ∧ x = .dict d.arg.entry) := by
  have hc : Canonical (.dict userNode) := hv ▸ db.canonical_value _
  have hmsg : ∀ {req : ConversationRequest} {k : String}, HoldsMessage req (db.value [k]) →
      HoldsMessage req ((db.setValue [d.arg.userKey]
        (appendConversation d.arg.entry (.dict userNode))).value [k]) := fun {req k} hm => by
    by_cases hk : d.arg.userKey = k
    · subst hk
      rw [hv] at hm
      rw [Database.value_setValue_self]
      exact hm.append hc (canonical_entry d.arg)
    · rw [value_setValue_ne hk]; exact hm
  have hold : x ∈ conversationList db [key] →
      ∃ e ∈ ds, e.arg.userKey = key ∧ x = .dict e.arg.entry ∧
        (e.outcome = .ret true → HoldsMessage e.arg ((db.setValue [d.arg.userKey]
          (appendConversation d.arg.entry (.dict userNode))).value [e.arg.conversationKey])) :=
    fun hx => by
      obtain ⟨e, he, hkey, hxe, hm⟩ := h key x hx
      exact ⟨e, he, hkey, hxe, fun ho => hmsg (hm ho)⟩
  by_cases hk : d.arg.userKey = key
  · subst hk
    rw [conversationList, Database.value_setValue_self] at hx
    rcases mem_entries_append hc hx with hx | hx
    · refine .inl (hold ?_)
      rw [conversationList, hv]; exact hx
    · exact .inr ⟨rfl, hx⟩
  · rw [conversationList, value_setValue_ne hk] at hx
    exact .inl (hold hx)

/-- **Step lemma**: one call, with any failures. -/
theorem EntriesHold.step {db' : Database} (h : EntriesHold ds db) (huser : '/' ∉ d.arg.userKey.toList)
    (hconv : '/' ∉ d.arg.conversationKey.toList)
    (hnew : ∀ e ∈ ds, e.arg.conversationKey ≠ d.arg.conversationKey)
    (hrun : exec d.arg.call db d.fate = (db', d.outcome)) : EntriesHold (ds ++ [d]) db' := by
  rcases ConversationRequest.exec_call_cases hrun with ⟨rfl, -⟩ |
    ⟨p, userNode, hp, hv, ⟨rfl, hr⟩ | ⟨q, hq, rfl, hr⟩⟩
  · intro key x hx
    obtain ⟨e, he, hrest⟩ := h key x hx
    exact ⟨e, List.mem_append_left _ he, hrest⟩
  · obtain rfl := child_single huser hp
    intro key x hx
    rcases h.first hv hx with ⟨e, he, hrest⟩ | ⟨hkey, hxd⟩
    · exact ⟨e, List.mem_append_left _ he, hrest⟩
    · refine ⟨d, by simp, hkey, hxd, fun ho => ?_⟩
      rcases hr with hr | ⟨hr, -⟩ <;> rw [hr] at ho <;> cases ho
  · obtain rfl := child_single huser hp
    obtain rfl := child_single hconv hq
    have hnode : stored (.dict d.arg.node) = .dict d.arg.node :=
      canonical_requestNode _
    intro key x hx
    rw [ConversationRequest.createdData, hv] at hx ⊢
    by_cases hk : d.arg.conversationKey = key
    · -- the conversation's node has no list
      subst hk
      rw [conversationList, Database.value_setValue_self, hnode] at hx
      cases hx
    · rw [conversationList, value_setValue_ne hk] at hx
      rcases h.first hv hx with ⟨e, he, hkey, hxe, hm⟩ | ⟨hkey, hxd⟩
      · refine ⟨e, List.mem_append_left _ he, hkey, hxe, fun ho => ?_⟩
        rw [value_setValue_ne (Ne.symm (hnew e he))]
        exact hm ho
      · refine ⟨d, by simp, hkey, hxd, fun _ => ?_⟩
        rw [Database.value_setValue_self, hnode]
        exact holdsMessage_node d.arg

end

/-- **Run lemma**, from data without conversations. -/
theorem EntriesHold.run {hist : List Creation} {db db' : Database}
    (hstart : ∀ key, conversationList db [key] = [])
    (hrun : InTurn ConversationRequest.call db hist db')
    (hkeys : ∀ d ∈ hist, '/' ∉ d.arg.userKey.toList ∧ '/' ∉ d.arg.conversationKey.toList)
    (hdiff : hist.Pairwise fun d e => d.arg.conversationKey ≠ e.arg.conversationKey) :
    EntriesHold hist db' := by
  refine hrun.inv (P := EntriesHold) (fun key x hx => ?_) fun ds d rest s s' he h hstep => ?_
  · rw [hstart key] at hx; cases hx
  · subst he
    obtain ⟨-, -, hcross⟩ := List.pairwise_append.1 hdiff
    obtain ⟨hu, hc⟩ := hkeys d (by simp)
    exact h.step hu hc (fun e hmem => hcross e hmem d (.head _)) hstep

/-- The entry has a node at its id, with a list of messages whose first one agrees with the entry in
text and date. -/
def EntryHolds (db : Database) (x : Value) : Prop :=
  ∃ id message messages, x.field "id" = .str id ∧
    ((db.value [id]).field "messages").asDictArray = some (message :: messages) ∧
    find "content" message = some ((x.field "latest_message").field "message") ∧
    find "date" message = some ((x.field "latest_message").field "date")

theorem HoldsMessage.entryHolds {req : ConversationRequest} {db : Database}
    (h : HoldsMessage req (db.value [req.conversationKey])) : EntryHolds db (.dict req.entry) := by
  obtain ⟨message, hm, -, -, hcontent, hdate, -⟩ := h
  exact ⟨req.conversationKey, message, [], rfl, hm, hcontent, hdate⟩

theorem conversationKey_inj {m m' : Message} (h : m.conversationId = m'.conversationId) :
    m.messageId = m'.messageId := by
  have := congrArg String.toList h
  simp only [Message.conversationId, String.toList_append] at this
  exact String.toList_inj.1 (List.append_cancel_left this)

/-- **A new conversation is created, or not, or half.** A call that completes with `false` has
changed nothing, or its second write failed and it has changed the caller's node only, by its entry.
Over every history of calls with different message ids and any failures, every entry of every list
has its message, unless its call did not complete with `true`. -/
theorem entries_hold {hist : List Creation} {db db' : Database}
    (hstart : ∀ key, conversationList db [key] = [])
    (hrun : InTurn ConversationRequest.call db hist db')
    (hkeys : ∀ d ∈ hist, '/' ∉ d.arg.userKey.toList ∧ '/' ∉ d.arg.firstMessage.messageId.toList)
    (hdiff : hist.Pairwise fun d e => d.arg.firstMessage.messageId ≠ e.arg.firstMessage.messageId) :
    (∀ (req : ConversationRequest) (s s' : Database) (o : List Bool),
        exec req.call s o = (s', .ret false) → s' = s ∨ SecondWriteFails o ∧
          ∃ p userNode, child req.userKey = some p ∧ s.value p = .dict userNode ∧
            s' = s.setValue p (appendConversation req.entry (.dict userNode))) ∧
      ∀ key, ∀ x ∈ conversationList db' [key], EntryHolds db' x ∨
        ∃ d ∈ hist, d.arg.userKey = key ∧ x = .dict d.arg.entry ∧ d.outcome ≠ .ret true := by
  refine ⟨fun req s s' o h => ?_, fun key x hx => ?_⟩
  · rcases ConversationRequest.exec_call_cases h with ⟨rfl, -⟩ |
      ⟨p, userNode, hp, hv, ⟨rfl, hr | ⟨-, hfail⟩⟩ | ⟨q, -, -, hr⟩⟩
    · exact .inl rfl
    · cases hr
    · exact .inr ⟨hfail, p, userNode, hp, hv, rfl⟩
    · cases hr
  · have hconv : ∀ d ∈ hist, '/' ∉ d.arg.conversationKey.toList := fun d hd hm => by
      rw [ConversationRequest.conversationKey, Message.conversationId, String.toList_append] at hm
      rcases List.mem_append.1 hm with hm | hm
      · exact absurd hm (by decide)
      · exact (hkeys d hd).2 hm
    obtain ⟨d, hd, hkey, hxd, hm⟩ := EntriesHold.run hstart hrun
      (fun d hd => ⟨(hkeys d hd).1, hconv d hd⟩)
      (hdiff.imp fun hne he => hne (conversationKey_inj he)) key x hx
    by_cases ho : d.outcome = .ret true
    · exact .inl (hxd ▸ (hm ho).entryHolds)
    · exact .inr ⟨d, hd, hkey, hxd, ho⟩

/-- One of two calls of a user fails at its second write. -/
def failedCreation : List Creation :=
  [⟨twoRequests true, [true, true, false], .ret false⟩, ⟨twoRequests false, [], .ret true⟩]

/-- The data after the first of them. -/
def halfData : Database := (exec (twoRequests true).call registered [true, true, false]).1

def failedCreationData : Database := (exec (twoRequests false).call halfData []).1

theorem failedCreation_inTurn :
    InTurn ConversationRequest.call registered failedCreation failedCreationData :=
  .cons (Prod.ext rfl (Prog.answer_eq_some.1 (by decide +kernel)))
    (.cons (Prod.ext rfl (Prog.answer_eq_some.1 (by decide +kernel))) (.nil _))

theorem registered_no_conversations (key : String) : conversationList registered [key] = [] := by
  have hdata : registered = registeredData .empty ["ada-mail-com"] (twoUsers true) :=
    Database.ext rfl
  rw [hdata, conversationList, registeredData]
  by_cases hu : "users" = key
  · subst hu
    rw [Database.value_setValue_self]; rfl
  · rw [value_setValue_ne hu]
    by_cases ha : "ada-mail-com" = key
    · subst ha
      rw [Database.value_setValue_self]; rfl
    · rw [value_setValue_ne ha, Database.value_empty]; rfl

theorem entries_hold_failed :
    (∀ (req : ConversationRequest) (s s' : Database) (o : List Bool),
        exec req.call s o = (s', .ret false) → s' = s ∨ SecondWriteFails o ∧
          ∃ p userNode, child req.userKey = some p ∧ s.value p = .dict userNode ∧
            s' = s.setValue p (appendConversation req.entry (.dict userNode))) ∧
      ∀ key, ∀ x ∈ conversationList failedCreationData [key], EntryHolds failedCreationData x ∨
        ∃ d ∈ failedCreation, d.arg.userKey = key ∧ x = .dict d.arg.entry ∧
          d.outcome ≠ .ret true :=
  entries_hold registered_no_conversations failedCreation_inTurn
    (List.forall_mem_cons.2 ⟨by decide +kernel, List.forall_mem_cons.2 ⟨by decide +kernel, nofun⟩⟩)
    (.cons (fun d hd => by rw [List.mem_singleton.1 hd]; decide +kernel) (List.pairwise_singleton ..))

/-- Two messages where the id of the second lies inside the node of the first. -/
def nestedRequests (i : Bool) : ConversationRequest :=
  { twoRequests i with firstMessage := ⟨if i then "first" else "first/messages", 0, .text "hello"⟩ }

def nestedData : Database :=
  (exec (nestedRequests false).call (exec (nestedRequests true).call registered []).1 []).1

/-- A call completes with `false` and has changed the caller's node, whose new entry has no message.
And two calls with different ids complete with `true`, the second of which destroys the message of
the first. -/
theorem creation_half_done :
    (exec (twoRequests true).call registered [true, true, false] = (halfData, .ret false) ∧
        halfData.value [(twoRequests true).userKey] ≠
          registered.value [(twoRequests true).userKey] ∧
        .dict (twoRequests true).entry ∈ conversationList halfData [(twoRequests true).userKey] ∧
        ¬ EntryHolds halfData (.dict (twoRequests true).entry)) ∧
      InTurn ConversationRequest.call registered
        [⟨nestedRequests true, [], .ret true⟩, ⟨nestedRequests false, [], .ret true⟩] nestedData ∧
      .dict (nestedRequests true).entry ∈
        conversationList nestedData [(nestedRequests true).userKey] ∧
      ¬ EntryHolds nestedData (.dict (nestedRequests true).entry) := by
  refine ⟨⟨Prod.ext rfl (Prog.answer_eq_some.1 (by decide +kernel)), fun h => ?_, .head _, ?_⟩,
    .cons (Prod.ext rfl (Prog.answer_eq_some.1 (by decide +kernel)))
      (.cons (Prod.ext rfl (Prog.answer_eq_some.1 (by decide +kernel))) (.nil _)), .head _, ?_⟩
  · have hlen := congrArg (fun v => (entries (conversationsField v)).length) h
    revert hlen
    decide +kernel
  · rintro ⟨id, message, messages, hid, hm, -⟩
    cases hid
    have hsome := congrArg Option.isSome hm
    rw [Option.isSome_some] at hsome
    revert hsome
    decide +kernel
  · rintro ⟨id, message, messages, hid, hm, -⟩
    cases hid
    have hsome := congrArg Option.isSome hm
    rw [Option.isSome_some] at hsome
    revert hsome
    decide +kernel

end IChat
