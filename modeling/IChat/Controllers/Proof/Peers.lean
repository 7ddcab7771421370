import IChat.Controllers.Proof.MessageIds
import IChat.Manager.Proof.Shapes

/-!
# One conversation per peer

A chat opened through compose creates a conversation at every press of Send, and the store appends
without looking for one with the same recipient. Registrations and sends that run one after the
other keep the recipients in every list different, if no send goes to a recipient who is already in
the sender's list (`peers_nodup`). Two sends in one chat list the recipient twice
(`peer_listed_twice`).
-/

namespace IChat

open Async Firebase SortedMap

/-- What a user does. -/
inductive UserAction where
  | register (user : ChatAppUser)
  | send (send : Send)

def UserAction.call : UserAction → Call Bool
  | .register user => DatabaseManager.insertUser user
  | .send s => s.inputBar

/-- The recipients in the list of a user's node. -/
def peers (db : Database) (user : Path) : List String :=
  (conversationList db user).filterMap fun entry => (entry.field "other_user_email").asString

/-- A conversation is created only with a recipient who is not in the sender's list. -/
def WithNewPeer (db : Database) : UserAction → Prop
  | .register _ => True
  | .send send => send.creates = true → ∀ user, child send.request.userKey = some user →
    send.chat.otherUserEmail ∉ peers db user

/-! ## Recipients in the tree -/

/-- In the list of the node at `p`, the element `k` has the recipient `e`. -/
def PeerAt (db : Database) (p : Path) (k e : String) : Prop :=
  db.root.get (p ++ ["conversations", k, "other_user_email"]) = .leaf (.str e)

/-- No list of any node has a recipient twice. -/
def UniquePeers (db : Database) : Prop :=
  ∀ p k k' e, PeerAt db p k e → PeerAt db p k' e → k = k'

theorem uniquePeers_empty : UniquePeers .empty := fun p k k' e h => by
  unfold PeerAt at h
  rw [Database.empty, KeyTree.get_empty] at h
  cases h

theorem field_of_child {kvs : List (String × Value)} {k e : String}
    (h : (nodeFrom (.dict kvs)).child k = .leaf (.str e)) :
    ((Value.dict kvs).field k).asString = some e := by
  rw [child_nodeFrom_dict] at h
  rw [Value.field_dict, leaf_of_nodeFrom h]
  rfl

/-- The recipient of an entry is in the tree, at the key of the entry. -/
theorem peerAt_of_child {db : Database} {p : Path} {userNode : List (String × Value)}
    (hv : db.value p = .dict userNode) {k : String} {x : Value}
    (hx : (nodeFrom (conversationsField (.dict userNode))).child k = nodeFrom x) {e : String}
    (he : (x.field "other_user_email").asString = some e) : PeerAt db p k e := by
  have hlist : db.root.get (p ++ ["conversations"]) =
      nodeFrom (conversationsField (.dict userNode)) := by
    rw [← db.nodeFrom_value]
    exact congrArg nodeFrom (Database.value_field hv "conversations")
  have hsplit : p ++ ["conversations", k, "other_user_email"] =
      (p ++ ["conversations"]) ++ [k, "other_user_email"] := by
    rw [List.append_assoc]; rfl
  rw [PeerAt, hsplit, KeyTree.get_append, hlist, KeyTree.get_cons, hx, KeyTree.get_cons,
    KeyTree.get_nil]
  cases x with
  | dict kvs =>
    rw [Value.field_dict, Value.asString_eq_some] at he
    rw [child_nodeFrom_dict, he]
    rfl
  | null | leaf | arr => cases he

/-- **Unique recipients in the tree are unique in every list.** -/
theorem UniquePeers.nodup {db : Database} (h : UniquePeers db) (p : Path) : (peers db p).Nodup := by
  unfold peers conversationList
  cases hv : db.value p with
  | dict userNode =>
    have hfield : (Value.dict userNode).field "conversations" =
        conversationsField (.dict userNode) := rfl
    rw [hfield]
    cases hxs : conversationsField (.dict userNode) with
    | arr xs =>
      have hchild : ∀ i (hi : i < xs.length), (nodeFrom (conversationsField
          (.dict userNode))).child (toString i) = nodeFrom xs[i] := fun i hi => by
        rw [hxs, child_nodeFrom_arr, arrayIndex_toString]
        simp only [List.getD_eq_getElem?_getD, List.getElem?_eq_getElem hi, Option.getD_some]
      refine List.pairwise_filterMap.2 (List.Pairwise.filter _ (List.pairwise_iff_getElem.2 ?_))
      intro i j hi hj hij e he e' he' hee
      subst hee
      have hkey := h p _ _ e (peerAt_of_child hv (hchild i hi) he)
        (peerAt_of_child hv (hchild j hj) he')
      have hindex := congrArg arrayIndex hkey
      rw [arrayIndex_toString, arrayIndex_toString] at hindex
      cases hindex
      exact absurd hij (Nat.lt_irrefl _)
    | dict kvs =>
      have hc : Canonical (.dict kvs) :=
        hxs ▸ canonical_conversationsField (hv ▸ db.canonical_value p)
      have hsorted := (canonical_of_dict hc).1
      have hchild : ∀ x ∈ kvs, (nodeFrom (conversationsField (.dict userNode))).child x.1 =
          nodeFrom x.2 := fun x hx => by
        rw [hxs, child_nodeFrom_dict, find_of_mem hsorted hx]
        rfl
      refine List.pairwise_filterMap.2 (List.pairwise_map.2 (hsorted.imp_of_mem ?_))
      intro x y hx hy hlt e he e' he' hee
      subst hee
      exact absurd (h p _ _ e (peerAt_of_child hv (hchild x hx) he)
        (peerAt_of_child hv (hchild y hy) he')) (ne_of_lt hlt)
    | null => exact List.nodup_nil
    | leaf a => exact List.nodup_nil
  | null | leaf | arr => exact List.nodup_nil

/-! ## What the writes put in the tree -/

/-- The recipient in the entry of a new conversation. -/
theorem get_entry {req : ConversationRequest} {r : Path} {a : Leaf}
    (h : (nodeFrom (.dict req.entry)).get (r ++ ["other_user_email"]) = .leaf a) :
    r = [] ∧ a = .str req.otherUserEmail := by
  cases r with
  | nil =>
    rw [List.nil_append, KeyTree.get_cons, KeyTree.get_nil, child_nodeFrom_dict] at h
    exact ⟨rfl, (KeyTree.leaf.inj h).symm⟩
  | cons k r =>
    exfalso
    rw [List.cons_append, KeyTree.get_cons, child_nodeFrom_dict] at h
    cases hk : find k req.entry with
    | none =>
      rw [hk] at h
      exact not_leaf_empty h
    | some v =>
      rw [hk, Option.getD_some, lacks_entry_field req (by decide) (mem_of_find hk) r] at h
      cases h

/-! ## Writes -/

section
variable {db : Database} {w p : Path} {k e : String}

/-- A recipient after a write was there before, or is in what was written. -/
theorem PeerAt.of_setValue {v : Value} (hv : (nodeFrom v).isEmpty = false)
    (h : PeerAt (db.setValue w v) p k e) :
    (PeerAt db p k e ∧ KeyTree.Apart w (p ++ ["conversations", k, "other_user_email"])) ∨
      ∃ r, p ++ ["conversations", k, "other_user_email"] = w ++ r ∧
        (nodeFrom v).get r = .leaf (.str e) :=
  KeyTree.get_set_eq_leaf hv h

/-- A write of a value without recipients keeps the recipients unique. -/
theorem UniquePeers.setValue (h : UniquePeers db) {v : Value} (hv : (nodeFrom v).isEmpty = false)
    (hno : ∀ p k e r, p ++ ["conversations", k, "other_user_email"] = w ++ r →
      (nodeFrom v).get r ≠ .leaf (.str e)) : UniquePeers (db.setValue w v) := by
  have hold : ∀ {p k e}, PeerAt (db.setValue w v) p k e → PeerAt db p k e := fun {p k e} hp => by
    rcases hp.of_setValue hv with ⟨hp, -⟩ | ⟨r, hr, hleaf⟩
    · exact hp
    · exact absurd hleaf (hno p k e r hr)
  exact fun p k k' e hp hp' => h p k k' e (hold hp) (hold hp')

/-- The path of a recipient ends in its field, if it goes below the write. -/
theorem recipient_suffix {r : Path} (hne : r ≠ [])
    (h : p ++ ["conversations", k, "other_user_email"] = w ++ r) :
    ∃ r', r = r' ++ ["other_user_email"] := by
  obtain ⟨r', x, rfl⟩ := (List.eq_nil_or_concat' r).resolve_left hne
  have hsplit : p ++ ["conversations", k, "other_user_email"] =
      (p ++ ["conversations", k]) ++ ["other_user_email"] := by rw [List.append_assoc]; rfl
  rw [hsplit, ← List.append_assoc] at h
  obtain ⟨-, hx⟩ := List.append_inj' h rfl
  cases hx
  exact ⟨r', rfl⟩

theorem UniquePeers.setValue_node (h : UniquePeers db) (user : ChatAppUser) :
    UniquePeers (db.setValue w (.ofStringDict user.node)) := by
  refine h.setValue ((canonical_node user).isEmpty_nodeFrom nofun) fun p k e r hr hleaf => ?_
  obtain ⟨f, rfl, hf⟩ := get_ofStringDict hleaf
  obtain ⟨r', hr'⟩ := recipient_suffix (List.cons_ne_nil _ _) hr
  have hsplit : [] ++ [f] = r' ++ ["other_user_email"] := hr'
  obtain ⟨-, hx⟩ := List.append_inj' hsplit rfl
  cases hx
  cases hf

theorem UniquePeers.setValue_directory (h : UniquePeers db) (user : ChatAppUser) {v : Value}
    (hv : Canonical v) : UniquePeers (db.setValue ["users"] (appendUser user v)) := by
  have hcanonical : Canonical (appendUser user v) := stored_appendUser hv
  refine h.setValue (hcanonical.isEmpty_nodeFrom nofun) fun p k e r hr hleaf => ?_
  obtain ⟨i, f, rfl⟩ := get_ofStringDictArray hleaf
  have hlen := congrArg List.length hr
  simp only [List.length_append, List.length_cons, List.length_nil] at hlen
  obtain rfl := List.length_eq_zero_iff.1 (show p.length = 0 by omega)
  exact absurd (List.cons.inj hr).1 (by decide)

theorem UniquePeers.setValue_conversation (h : UniquePeers db) (req : ConversationRequest) :
    UniquePeers (db.setValue w (.dict req.node)) := by
  refine h.setValue rfl fun p k e r hr hleaf => ?_
  cases r with
  | nil => cases hleaf
  | cons x r =>
    obtain ⟨r', hr'⟩ := recipient_suffix (List.cons_ne_nil _ _) hr
    rw [hr', lacks_conversationNode req rfl (by decide) (by decide) r'] at hleaf
    cases hleaf

end

/-! ## An append -/

section
variable {db : Database} {q : Path} {userNode : List (String × Value)}

theorem get_below (hv : db.value q = .dict userNode) (r : Path) :
    db.root.get (q ++ r) = (nodeFrom (.dict userNode)).get r := by
  rw [KeyTree.get_append, ← hv, db.nodeFrom_value]

/-- A recipient in an element that the append keeps is in the list. -/
theorem mem_peers (hv : db.value q = .dict userNode) {ds : List (List (String × Value))}
    (hds : conversationsField (.dict userNode) = .ofDictArray ds) {d : List (String × Value)}
    (hd : d ∈ ds) {e : String}
    (he : (nodeFrom (.dict d)).child "other_user_email" = .leaf (.str e)) : e ∈ peers db q := by
  have hlist : (Value.dict userNode).field "conversations" = .ofDictArray ds := hds
  rw [peers, conversationList, hv, hlist, entries_ofDictArray]
  exact List.mem_filterMap.2 ⟨_, List.mem_map_of_mem hd, field_of_child he⟩

/-- The recipients in the list that an append writes: in an element it keeps, or the new one. -/
theorem get_appended {req : ConversationRequest} {p r : Path} {k e : String}
    (hr : p ++ ["conversations", k, "other_user_email"] = q ++ "conversations" :: r)
    (hleaf : (nodeFrom (.ofDictArray ((conversationsField (.dict userNode)).asDictArray.getD [] ++
      [req.entry]))).get r = .leaf (.str e)) :
    ((nodeFrom (conversationsField (.dict userNode))).get r = .leaf (.str e) ∧
        ∃ ds i r' d, conversationsField (.dict userNode) = .ofDictArray ds ∧ r = i :: r' ∧ d ∈ ds ∧
          (nodeFrom (.dict d)).get r' = .leaf (.str e)) ∨
      (p = q ∧ e = req.otherUserEmail ∧
        k = toString ((conversationsField (.dict userNode)).asDictArray.getD []).length) := by
  obtain ⟨i, n, r', v, rfl, hi, hn, hleaf⟩ := get_arr hleaf
  rw [List.getElem?_map] at hn
  obtain ⟨d, hd, rfl⟩ := Option.map_eq_some_iff.1 hn
  rcases Nat.lt_or_ge n ((conversationsField (.dict userNode)).asDictArray.getD []).length
    with hlt | hge
  · rw [List.getElem?_append_left hlt] at hd
    cases hds : (conversationsField (.dict userNode)).asDictArray with
    | none => rw [hds] at hlt; exact absurd hlt (Nat.not_lt_zero _)
    | some ds =>
      rw [hds, Option.getD_some] at hd
      have hfield := Value.asDictArray_eq_some.1 hds
      refine .inl ⟨?_, ds, i, r', d, hfield, rfl, List.mem_of_getElem? hd, hleaf⟩
      rw [hfield, Value.ofDictArray, KeyTree.get_cons, child_nodeFrom_arr, hi]
      simp only [List.getD_eq_getElem?_getD, List.getElem?_map, hd, Option.map_some,
        Option.getD_some]
      exact hleaf
  · -- the last element is the new entry
    have hlast := (List.getElem?_eq_some_iff.1 hd).1
    rw [List.length_append, List.length_singleton] at hlast
    obtain rfl : n = ((conversationsField (.dict userNode)).asDictArray.getD []).length := by omega
    rw [List.getElem?_concat_length] at hd
    obtain rfl := Option.some.inj hd
    have hne : r' ≠ [] := fun he => by rw [he] at hleaf; cases hleaf
    have hsplit : q ++ "conversations" :: i :: r' = (q ++ ["conversations", i]) ++ r' := by
      rw [List.append_assoc]; rfl
    obtain ⟨r₀, rfl⟩ := recipient_suffix hne (hr.trans hsplit)
    obtain ⟨rfl, he⟩ := get_entry hleaf
    obtain ⟨rfl, hrest⟩ := List.append_inj' hr rfl
    cases hrest
    cases he
    exact .inr ⟨rfl, rfl, toString_of_arrayIndex hi⟩

/-- A recipient after an append was there before, and in the list if it is in this one; or it is
the new one, in the last element. -/
theorem PeerAt.of_append (hv : db.value q = .dict userNode) {req : ConversationRequest} {p : Path}
    {k e : String}
    (h : PeerAt (db.setValue q (appendConversation req.entry (.dict userNode))) p k e) :
    (PeerAt db p k e ∧ (p = q → e ∈ peers db q)) ∨
      (p = q ∧ e = req.otherUserEmail ∧
        k = toString ((conversationsField (.dict userNode)).asDictArray.getD []).length) := by
  have hc : Canonical (.dict userNode) := hv ▸ db.canonical_value q
  have hne : (nodeFrom (appendConversation req.entry (.dict userNode))).isEmpty = false :=
    Canonical.isEmpty_nodeFrom (stored_appendConversation hc (canonical_entry req)) nofun
  rcases h.of_setValue hne with ⟨hp, ha⟩ | ⟨r, hr, hleaf⟩
  · refine .inl ⟨hp, ?_⟩
    rintro rfl
    exact absurd ha (KeyTree.not_apart_of_prefix (List.prefix_append _ _))
  · rw [appendConversation_dict] at hleaf
    cases r with
    | nil => cases hleaf
    | cons x r =>
      have hold : ((nodeFrom (.dict userNode)).child x).get r = .leaf (.str e) → PeerAt db p k e :=
        fun h => by rw [PeerAt, hr, get_below hv, KeyTree.get_cons, h]
      rw [KeyTree.get_cons, child_nodeFrom_dict, find_insert] at hleaf
      rw [child_nodeFrom_dict] at hold
      split at hleaf
      · rename_i hx
        subst hx
        rcases get_appended hr hleaf with ⟨hkept, ds, i, r', d, hds, rfl, hd, hpeer⟩ | hnew
        · refine .inl ⟨hold hkept, ?_⟩
          rintro rfl
          obtain ⟨-, hrest⟩ := List.cons.inj (List.append_cancel_left hr)
          cases hrest
          exact mem_peers hv hds hd hpeer
        · exact .inr hnew
      · rename_i hx
        refine .inl ⟨hold hleaf, ?_⟩
        rintro rfl
        exact absurd (List.cons.inj (List.append_cancel_left hr)).1.symm hx

/-- **An append with a new recipient keeps the recipients unique.** -/
theorem UniquePeers.append (h : UniquePeers db) (hv : db.value q = .dict userNode)
    {req : ConversationRequest} (hnew : req.otherUserEmail ∉ peers db q) :
    UniquePeers (db.setValue q (appendConversation req.entry (.dict userNode))) := by
  intro p k k' e hk hk'
  rcases PeerAt.of_append hv hk with ⟨hold, hin⟩ | ⟨hpq, rfl, hlast⟩
  · rcases PeerAt.of_append hv hk' with ⟨hold', -⟩ | ⟨hpq, rfl, -⟩
    · exact h p k k' e hold hold'
    · exact absurd (hin hpq) hnew
  · rcases PeerAt.of_append hv hk' with ⟨-, hin⟩ | ⟨-, -, hlast'⟩
    · exact absurd (hin hpq) hnew
    · rw [hlast, hlast']

end

/-! ## Runs -/

/-- **Step lemma**: one call, with any failures. -/
theorem UniquePeers.step {db db' : Database} (h : UniquePeers db) {action : UserAction}
    (hnew : WithNewPeer db action) {o : List Bool} {r : Call Bool}
    (hrun : exec action.call db o = (db', r)) : UniquePeers db' := by
  cases action with
  | register user =>
    rcases exec_insertUser_cases hrun with ⟨rfl, -⟩ | ⟨p, -, ⟨rfl, -⟩ | ⟨rfl, -⟩⟩
    · exact h
    · exact h.setValue_node user
    · exact (h.setValue_node user).setValue_directory user (Database.canonical_value _ _)
  | send s =>
    rw [UserAction.call, Send.inputBar] at hrun
    split at hrun
    · rename_i hcreates
      rcases ConversationRequest.exec_call_cases hrun with ⟨rfl, -⟩ | ⟨p, userNode, hp, hv, hwrites⟩
      · exact h
      · have hfirst : UniquePeers
            (db.setValue p (appendConversation s.request.entry (.dict userNode))) :=
          h.append hv (hnew hcreates p hp)
        rcases hwrites with ⟨rfl, -⟩ | ⟨q, -, rfl, -⟩
        · exact hfirst
        · rw [ConversationRequest.createdData, hv]
          exact hfirst.setValue_conversation s.request
    · cases hrun
      exact h

/-- **A user has one conversation per peer, in every state reached by registrations and sends of
which each creates a conversation with a new peer only.** -/
theorem peers_nodup {hist : List (Done UserAction Path Value Bool)} {db : Database}
    (hrun : InTurn UserAction.call Database.empty hist db)
    (hmeets : MeetsInTurn UserAction.call WithNewPeer .empty hist) (user : Path) :
    (peers db user).Nodup :=
  (hrun.inv_meets hmeets uniquePeers_empty fun _ _ _ h hnew hstep => h.step hnew hstep).nodup user

/-- A message from Ada in a chat opened through compose. -/
def adaWrites (otherUserEmail : String) (second : Rat) : Send where
  chat := ⟨otherUserEmail, none, true⟩
  dateFormatter := ⟨toString⟩
  idDate := second
  sentDate := second
  text := "hello"
  currentUser := "ada@mail.com"
  manager := ⟨"ada@mail.com"⟩

/-- The database after Ada's first message to Zain. -/
def zainWritten : Database := (exec (adaWrites "zain-mail-com" 1).inputBar registered []).1

theorem zainWritten_eq :
    exec (UserAction.call (.send (adaWrites "zain-mail-com" 1))) registered [] =
      (zainWritten, .ret true) := Prod.ext rfl (Prog.answer_eq_some.1 (by decide +kernel))

theorem registered_eq :
    exec (UserAction.call (.register (twoUsers true))) .empty [] = (registered, .ret true) :=
  Prod.ext rfl rfl

/-- The database after Ada's next message, to the given recipient. -/
def thenWritten (otherUserEmail : String) : Database :=
  (exec (adaWrites otherUserEmail 2).inputBar zainWritten []).1

/-- Ada registers, writes to Zain, and then to the given recipient in a later second. -/
def adaHistory (otherUserEmail : String) : List (Done UserAction Path Value Bool) :=
  [⟨.register (twoUsers true), [], .ret true⟩, ⟨.send (adaWrites "zain-mail-com" 1), [], .ret true⟩,
    ⟨.send (adaWrites otherUserEmail 2), [], .ret true⟩]

theorem adaHistory_run {otherUserEmail : String}
    (h : (exec (adaWrites otherUserEmail 2).inputBar zainWritten []).2 = .ret true) :
    InTurn UserAction.call .empty (adaHistory otherUserEmail) (thenWritten otherUserEmail) :=
  .cons registered_eq (.cons zainWritten_eq (.cons (Prod.ext rfl h) (.nil _)))

theorem adaWrites_user {otherUserEmail : String} {second : Rat} {p : Path}
    (hp : child (adaWrites otherUserEmail second).request.userKey = some p) :
    p = ["ada-mail-com"] := by
  have huser : child (safeEmail "ada@mail.com") = some ["ada-mail-com"] := by decide +kernel
  exact Option.some.inj (hp.symm.trans huser)

theorem peers_nodup_twoChats : (peers (thenWritten "omar-mail-com") ["ada-mail-com"]).Nodup := by
  have hanswer : (exec (adaWrites "omar-mail-com" 2).inputBar zainWritten []).2 = .ret true :=
    Prog.answer_eq_some.1 (by decide +kernel)
  refine peers_nodup (adaHistory_run hanswer) ⟨trivial, fun _ p hp => ?_, ?_⟩ _
  · rw [adaWrites_user hp, registered_eq]
    decide +kernel
  · rw [registered_eq, zainWritten_eq]
    refine ⟨fun _ p hp => ?_, trivial⟩
    rw [adaWrites_user hp]
    decide +kernel

/-- A second message in one chat completes with `true` and lists its recipient again. -/
theorem peer_listed_twice :
    InTurn UserAction.call .empty (adaHistory "zain-mail-com") (thenWritten "zain-mail-com") ∧
      (adaWrites "zain-mail-com" 1).dateFormatter.string 1 ≠
        (adaWrites "zain-mail-com" 2).dateFormatter.string 2 ∧
      ¬ (peers (thenWritten "zain-mail-com") ["ada-mail-com"]).Nodup :=
  ⟨adaHistory_run (Prog.answer_eq_some.1 (by decide +kernel)), by decide +kernel, by decide +kernel⟩

end IChat
