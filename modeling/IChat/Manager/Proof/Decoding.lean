import IChat.Manager.Proof.Isolation

/-!
# Malformed conversations

`getAllConversation` skips a dictionary that lacks a field of a conversation, but first casts the
whole array to dictionaries: one element of another kind, such as a hole that reads as `NSNull`,
hides every conversation. It answers all well-formed entries exactly when every element is a
dictionary (`getAllConversation_skips_iff`).
-/

namespace IChat

open Async Firebase SortedMap

/-! ## Well-formed entries -/

/-- The dictionary has the conversation's fields, each of its type. -/
structure StoresConversation (dictionary : List (String × Value)) (c : Conversation) : Prop where
  id : find "id" dictionary = some (.str c.id)
  name : find "otherUserName" dictionary = some (.str c.name)
  otherUserEmail : find "other_user_email" dictionary = some (.str c.otherUserEmail)
  latestMessage : ∃ message, find "latest_message" dictionary = some (.dict message) ∧
    find "date" message = some (.str c.latestMessage.date) ∧
    (find "is_read" message).bind Value.asBool = some c.latestMessage.isRead ∧
    find "message" message = some (.str c.latestMessage.text)

theorem bind_asString {v : Option Value} {s : String} :
    v.bind Value.asString = some s ↔ v = some (.str s) := by
  simp only [Option.bind_eq_some_iff, Value.asString_eq_some, exists_eq_right]

theorem bind_asDict {v : Option Value} {kvs : List (String × Value)} :
    v.bind Value.asDict = some kvs ↔ v = some (.dict kvs) := by
  simp only [Option.bind_eq_some_iff, Value.asDict_eq_some, exists_eq_right]

/-- **The decoder accepts the well-formed entries**, with the fields they store. -/
theorem ofDictionary_eq_some {dictionary : List (String × Value)} {c : Conversation} :
    Conversation.ofDictionary dictionary = some c ↔ StoresConversation dictionary c := by
  constructor
  · intro h
    obtain ⟨id, hid, h⟩ := Option.bind_eq_some_iff.1 h
    obtain ⟨name, hname, h⟩ := Option.bind_eq_some_iff.1 h
    obtain ⟨email, hemail, h⟩ := Option.bind_eq_some_iff.1 h
    obtain ⟨message, hmessage, h⟩ := Option.bind_eq_some_iff.1 h
    obtain ⟨date, hdate, h⟩ := Option.bind_eq_some_iff.1 h
    obtain ⟨isRead, hread, h⟩ := Option.bind_eq_some_iff.1 h
    obtain ⟨text, htext, h⟩ := Option.bind_eq_some_iff.1 h
    cases h
    exact ⟨bind_asString.1 hid, bind_asString.1 hname, bind_asString.1 hemail, message,
      bind_asDict.1 hmessage, bind_asString.1 hdate, hread, bind_asString.1 htext⟩
  · intro h
    obtain ⟨hid, hname, hemail, message, hmessage, hdate, hread, htext⟩ := h
    unfold Conversation.ofDictionary
    rw [hid, hname, hemail, hmessage]
    simp only [Option.bind_eq_bind, Option.bind_some, Value.asString_str, Value.asDict_dict, hdate,
      hread, htext]
    rfl

/-- The conversations in the well-formed elements of a list, each once and in order; the other
elements are skipped. -/
inductive Decodes : List Value → List Conversation → Prop
  | nil : Decodes [] []
  | entry {kvs : List (String × Value)} {c : Conversation} {xs : List Value}
    {cs : List Conversation} (h : StoresConversation kvs c) (hs : Decodes xs cs) :
    Decodes (.dict kvs :: xs) (c :: cs)
  | skip {x : Value} {xs : List Value} {cs : List Conversation}
    (h : ∀ kvs c, x = .dict kvs → ¬ StoresConversation kvs c) (hs : Decodes xs cs) :
    Decodes (x :: xs) cs

/-- Of dictionaries these are the ones that the decoder accepts. -/
theorem decodes_dicts_iff {ds : List (List (String × Value))} {cs : List Conversation} :
    Decodes (ds.map .dict) cs ↔ ds.filterMap Conversation.ofDictionary = cs := by
  induction ds generalizing cs with
  | nil =>
    constructor
    · intro h; cases h; rfl
    · rintro rfl; exact .nil
  | cons d ds ih =>
    rw [List.map_cons, List.filterMap_cons]
    constructor
    · intro h
      cases h with
      | entry h hs => rw [ofDictionary_eq_some.2 h, ih.1 hs]
      | skip h hs =>
        have hnone : Conversation.ofDictionary d = none :=
          Option.eq_none_iff_forall_ne_some.2 fun c hc => h d c rfl (ofDictionary_eq_some.1 hc)
        rw [hnone, ih.1 hs]
    · intro h
      cases hd : Conversation.ofDictionary d with
      | some c =>
        rw [hd] at h
        cases h
        exact .entry (ofDictionary_eq_some.1 hd) (ih.2 rfl)
      | none =>
        rw [hd] at h
        refine .skip (fun kvs c he hc => ?_) (ih.2 h)
        cases he
        rw [ofDictionary_eq_some.2 hc] at hd
        cases hd

/-! ## The list -/

/-- What the client does next when its read delivers `v`. -/
def delivered {ρ : Type} (call : Call ρ) (v : Value) : Call ρ :=
  match call with
  | .read _ k => k v
  | _ => call

theorem delivered_getAllConversation {email : String}
    (h : isValidPathString (email ++ "/conversations") = true) (v : Value) :
    delivered (DatabaseManager.getAllConversation email) v = .ret (conversationsOf v) := by
  simp only [DatabaseManager.getAllConversation, atChild, child, h, ↓reduceIte,
    observeSingleEvent, delivered]

theorem asDictArray_isSome {xs : List Value} :
    (Value.arr xs).asDictArray.isSome ↔ ∀ x ∈ xs, ∃ kvs, x = .dict kvs := by
  constructor
  · intro h x hx
    obtain ⟨ds, hds⟩ := Option.isSome_iff_exists.1 h
    have harr : Value.arr xs = .arr (ds.map .dict) := Value.asDictArray_eq_some.1 hds
    cases harr
    obtain ⟨d, -, rfl⟩ := List.mem_map.1 hx
    exact ⟨d, rfl⟩
  · intro h
    have hlift : ∃ ds : List (List (String × Value)), xs = ds.map .dict := by
      induction xs with
      | nil => exact ⟨[], rfl⟩
      | cons x xs ih =>
        obtain ⟨d, rfl⟩ := h x (.head _)
        obtain ⟨ds, rfl⟩ := ih fun y hy => h y (.tail _ hy)
        exact ⟨d :: ds, rfl⟩
    obtain ⟨ds, rfl⟩ := hlift
    have hcast : (Value.arr (ds.map .dict)).asDictArray = some ds := Value.asDictArray_eq_some.2 rfl
    rw [hcast]
    rfl

/-- **All well-formed conversations are answered, in order, exactly when every element of the array
is a dictionary.** -/
theorem getAllConversation_skips_iff {email : String}
    (h : isValidPathString (email ++ "/conversations") = true) (xs : List Value) :
    (∃ cs, Decodes xs cs ∧
        delivered (DatabaseManager.getAllConversation email) (.arr xs) = .ret (.ok cs)) ↔
      ∀ x ∈ xs, ∃ kvs, x = .dict kvs := by
  rw [delivered_getAllConversation h, ← asDictArray_isSome]
  unfold conversationsOf
  cases hds : (Value.arr xs).asDictArray with
  | none =>
    constructor
    · intro h
      obtain ⟨cs, -, hcs⟩ := h
      cases hcs
    · intro h; cases h
  | some ds =>
    have harr : Value.arr xs = .arr (ds.map .dict) := Value.asDictArray_eq_some.1 hds
    cases harr
    exact iff_of_true ⟨_, decodes_dicts_iff.2 rfl, rfl⟩ rfl

/-- A list with a well-formed entry and one without fields. -/
def partlyFormed : List Value := [.dict (twoRequests true).entry, .dict []]

theorem getAllConversation_skips_partlyFormed :
    (∃ cs, Decodes partlyFormed cs ∧
        delivered (DatabaseManager.getAllConversation "ada-mail-com") (.arr partlyFormed) =
          .ret (.ok cs)) ↔
      ∀ x ∈ partlyFormed, ∃ kvs, x = .dict kvs :=
  getAllConversation_skips_iff (by decide +kernel) partlyFormed

/-- After the first of two entries is removed, the other one, which is well-formed, is not
answered. -/
theorem conversation_hidden_by_hole :
    (((Database.empty.setValue ["ada-mail-com", "conversations"]
        (.ofDictArray [(twoRequests true).entry, (twoRequests false).entry])).setValue
        ["ada-mail-com", "conversations", "0"] .null).value ["ada-mail-com", "conversations"] =
      .arr [.null, .dict (twoRequests false).entry]) ∧
    StoresConversation (twoRequests false).entry (twoRequests false).conversation ∧
    Decodes [.null, .dict (twoRequests false).entry] [(twoRequests false).conversation] ∧
    ¬ ∃ cs, Decodes [.null, .dict (twoRequests false).entry] cs ∧
      delivered (DatabaseManager.getAllConversation "ada-mail-com")
        (.arr [.null, .dict (twoRequests false).entry]) = .ret (.ok cs) := by
  have hstores := ofDictionary_eq_some.1 (ofDictionary_entry (twoRequests false))
  refine ⟨by rfl, hstores, .skip (fun _ _ he => by cases he) (.entry hstores .nil), fun h => ?_⟩
  obtain ⟨cs, -, hcs⟩ := h
  rw [delivered_getAllConversation (by decide +kernel)] at hcs
  cases hcs

end IChat
