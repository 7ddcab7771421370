import IChat.Firebase.Proof.Entries
import IChat.Manager.Proof.FailedConversations

/-!
# Appending to a collection of any shape

Both writing operations append only when the whole collection can be cast, and otherwise write a new
list with one entry. A call that ran alone and completed with `true` keeps every entry exactly when
nothing was stored or the collection it read can be cast (`appends_keep_iff`); a list from which the
database has lost an element is replaced (`entries_replaced`).
-/

namespace IChat

open Async Firebase SortedMap

/-! ## Collections -/

/-- Every entry of the collection is still there, and the new one too. -/
def Keeps (before after new : Value) : Prop := (entries before ++ [new]).Subperm (entries after)

/-- A list of the entries of a cast and a new one keeps a collection exactly when the collection's
entries are among those of the cast. -/
theorem keeps_append_iff {before after new : Value} {kept : List Value}
    (h : entries after = kept ++ [new]) :
    Keeps before after new ↔ (entries before).Subperm kept := by
  rw [Keeps, h, List.subperm_append_right]

theorem subperm_nil_iff {v : Value} (h : Canonical v) : (entries v).Subperm [] ↔ v = .null := by
  rw [List.subperm_nil, entries_eq_nil h]

/-! ## The directory -/

/-- Nothing is stored in the directory, or it is an array of string dictionaries when the call reads
it, with all its entries. (The call reads what was stored, unless the user's node is the directory
or inside it.) -/
def DirectoryCasts (db : Database) (user : ChatAppUser) : Prop :=
  db.value ["users"] = .null ∨ ∃ p ds, child user.safeEmail = some p ∧
    ((db.setValue p (.ofStringDict user.node)).value ["users"]).asStringDictArray = some ds ∧
    (entries (db.value ["users"])).Subperm (ds.map .ofStringDict)

/-- For a node apart from the directory, the cast of what is stored decides. -/
theorem directoryCasts_apart {db : Database} {user : ChatAppUser} {p : Path}
    (hp : child user.safeEmail = some p) (h : KeyTree.Apart p ["users"]) :
    DirectoryCasts db user ↔
      db.value ["users"] = .null ∨ (db.value ["users"]).asStringDictArray.isSome := by
  refine or_congr Iff.rfl ?_
  constructor
  · intro h
    obtain ⟨p', ds, hp', hds, -⟩ := h
    obtain rfl := Option.some.inj (hp.symm.trans hp')
    rw [db.value_setValue_apart _ h] at hds
    rw [hds]; rfl
  · intro hsome
    obtain ⟨ds, hds⟩ := Option.isSome_iff_exists.1 hsome
    refine ⟨p, ds, hp, by rw [db.value_setValue_apart _ h, hds], ?_⟩
    rw [Value.asStringDictArray_eq_some.1 hds, entries_ofStringDictArray]

theorem insertUser_keeps_iff {user : ChatAppUser} {db db' : Database} {o : List Bool}
    (h : exec (DatabaseManager.insertUser user) db o = (db', .ret true)) :
    Keeps (db.value ["users"]) (db'.value ["users"]) (.ofStringDict user.newUser) ↔
      DirectoryCasts db user := by
  rcases exec_insertUser_cases h with ⟨-, hr⟩ | ⟨p, hp, ⟨-, hr⟩ | ⟨rfl, -⟩⟩
  · exact absurd rfl hr
  · exact absurd rfl hr
  · have hread := Database.canonical_value (db.setValue p (.ofStringDict user.node)) ["users"]
    rw [Database.value_setValue_self, stored_appendUser hread,
      keeps_append_iff (by rw [appendUser, entries_ofStringDictArray, List.map_append]; rfl)]
    unfold DirectoryCasts
    constructor
    · intro hsub
      cases hds : ((db.setValue p (.ofStringDict user.node)).value ["users"]).asStringDictArray with
      | none =>
        rw [hds] at hsub
        exact .inl ((subperm_nil_iff (db.canonical_value _)).1 hsub)
      | some ds =>
        rw [hds] at hsub
        exact .inr ⟨p, ds, hp, hds, hsub⟩
    · intro h
      rcases h with hnull | ⟨p', ds, hp', hds, hsub⟩
      · rw [hnull]; exact List.nil_subperm
      · obtain rfl := Option.some.inj (hp.symm.trans hp')
        rw [hds]; exact hsub

/-! ## The conversations of a user -/

/-- Nothing is stored in the list, or it is an array of dictionaries. -/
def ListCasts (v : Value) : Prop := v = .null ∨ v.asDictArray.isSome

theorem entries_subperm_iff {v : Value} (h : Canonical v) :
    (entries v).Subperm ((v.asDictArray.getD []).map .dict) ↔ ListCasts v := by
  unfold ListCasts
  cases hds : v.asDictArray with
  | none => simpa using subperm_nil_iff h
  | some ds =>
    rw [Value.asDictArray_eq_some.1 hds, entries_ofDictArray]
    exact iff_of_true (List.Subperm.refl _) (.inr rfl)

section
variable (req : ConversationRequest) {key : String}

/-- The fields of a message are leaves. -/
theorem lacks_messageData (hkey : find key (messageData req.manager.userEmail req.dateFormatter
      req.otherUserName req.firstMessage) = none) :
    Lacks key (.dict (messageData req.manager.userEmail req.dateFormatter req.otherUserName
      req.firstMessage)) := by
  refine lacks_dict hkey fun x hx => ?_
  have hm := mem_ofList hx
  simp only [List.mem_cons, List.not_mem_nil, or_false] at hm
  rcases hm with rfl | rfl | rfl | rfl | rfl | rfl | rfl <;> exact lacks_leaf key _

/-- A conversation's node has only its message's fields below `messages` and an index. -/
theorem lacks_conversationNode (hkey : find key (messageData req.manager.userEmail
      req.dateFormatter req.otherUserName req.firstMessage) = none) (hmessages : key ≠ "messages")
    (hindex : arrayIndex key = none) : Lacks key (.dict req.node) := by
  rw [ConversationRequest.node, conversationNode]
  refine lacks_dict ?_ fun x hx => ?_
  · rw [find_ofList, find, if_neg hmessages]
    rfl
  · rw [List.mem_singleton.1 (mem_ofList hx)]
    refine lacks_arr hindex fun y hy => ?_
    rw [List.mem_singleton.1 hy]
    exact lacks_messageData req hkey

/-- Below its own keys an entry has only those of its latest message. -/
theorem lacks_entry_field (hkey : key ∉ ["date", "message", "is_read"]) {x : String × Value}
    (hx : x ∈ req.entry) : Lacks key x.2 := by
  have hm := mem_ofList hx
  simp only [List.mem_cons, List.not_mem_nil, or_false] at hm hkey
  rcases hm with rfl | rfl | rfl | rfl
  · exact lacks_leaf key _
  · exact lacks_leaf key _
  · exact lacks_leaf key _
  · refine lacks_dict ?_ fun y hy => ?_
    · obtain ⟨hdate, hmessage, hread⟩ : key ≠ "date" ∧ key ≠ "message" ∧ key ≠ "is_read" := by
        simpa using hkey
      simp only [find_ofList, find, hdate, hmessage, hread, ↓reduceIte]
    · have hm := mem_ofList hy
      simp only [List.mem_cons, List.not_mem_nil, or_false] at hm
      rcases hm with rfl | rfl | rfl <;> exact lacks_leaf key _

/-- So no conversation's node is inside an entry. -/
theorem get_entry_ne_node (r : Path) :
    (nodeFrom (.dict req.entry)).get r ≠ nodeFrom (.dict req.node) := by
  intro h
  have hmessages : find "messages" req.entry = none := by
    rw [ConversationRequest.entry, newConversationData, find_ofList]
    rfl
  have hnone := lacks_dict hmessages (fun _ hx => lacks_entry_field req (by decide) hx) r
  rw [KeyTree.get_append, h, KeyTree.get_cons, child_nodeFrom_dict] at hnone
  cases congrArg KeyTree.isEmpty hnone

end

/-- A list at or below a conversation's node does not have the entry. -/
theorem list_of_conversationNode (req : ConversationRequest) (db : Database) {q list : Path}
    {p : Path} (hlist : list = p ++ ["conversations"]) (hq : q <+: list) :
    ¬ (.dict req.entry) ∈ entries ((db.setValue q (.dict req.node)).value list) := by
  obtain ⟨r, rfl⟩ := hq
  rw [Database.value, Database.setValue, KeyTree.get_append, KeyTree.get_set_self]
  cases r using List.reverseRecOn with
  | nil =>
    have hnode : val (nodeFrom (.dict req.node)) = .dict req.node := canonical_requestNode req
    rw [KeyTree.get_nil, hnode]
    intro hm
    cases List.mem_singleton.1 hm
  | append_singleton r k =>
    rw [← List.append_assoc] at hlist
    obtain ⟨-, hk⟩ := List.append_inj' hlist rfl
    cases hk
    rw [lacks_conversationNode req rfl (by decide) (by decide) r]
    exact List.not_mem_nil

/-- The list that the call writes after reading the list `v`: the entries of the cast and the new
one. -/
def appendedList (req : ConversationRequest) (v : Value) : Value :=
  .ofDictArray (v.asDictArray.getD [] ++ [req.entry])

theorem canonical_appendedList (req : ConversationRequest) {v : Value} (hv : Canonical v) :
    Canonical (appendedList req v) := canonical_append hv (canonical_entry req)

theorem entries_appendedList (req : ConversationRequest) (v : Value) :
    entries (appendedList req v) = (v.asDictArray.getD []).map .dict ++ [.dict req.entry] := by
  rw [appendedList, entries_ofDictArray, List.map_append]
  rfl

/-- The first write alone. -/
theorem value_appendConversation (req : ConversationRequest) {db : Database} {p : Path}
    {userNode : List (String × Value)} (hv : db.value p = .dict userNode) :
    (db.setValue p (appendConversation req.entry (db.value p))).value (p ++ ["conversations"]) =
      appendedList req (db.value (p ++ ["conversations"])) := by
  have hc : Canonical (.dict userNode) := hv ▸ db.canonical_value p
  have hfield := conversationsField_append req.entry userNode
  rw [Database.value_field hv, hv]
  rw [appendConversation_dict] at hfield ⊢
  rw [Database.value_setValue_field]
  change stored (conversationsField _) = _
  rw [hfield]
  exact canonical_appendedList req (canonical_conversationsField hc)

/-! ## Writes below the list -/

theorem cast_of_not_casts {v : Value} (h : ¬ ListCasts v) : v.asDictArray = none :=
  Option.not_isSome_iff_eq_none.1 fun hsome => h (.inr hsome)

/-- What can be cast is stored as the list of the cast. -/
theorem nodeFrom_of_casts {v : Value} (h : ListCasts v) :
    nodeFrom v = nodeFrom (.ofDictArray (v.asDictArray.getD [])) := by
  rcases h with rfl | h
  · rfl
  · obtain ⟨ds, hds⟩ := Option.isSome_iff_exists.1 h
    rw [hds, Option.getD_some, ← Value.asDictArray_eq_some.1 hds]

theorem entries_of_casts {v : Value} (h : ListCasts v) :
    entries v = (v.asDictArray.getD []).map .dict := by
  rcases h with rfl | h
  · rfl
  · obtain ⟨ds, hds⟩ := Option.isSome_iff_exists.1 h
    rw [hds, Value.asDictArray_eq_some.1 hds, entries_ofDictArray]
    rfl

theorem cons_subperm_cons_iff {α : Type} {a b : α} {l : List α} :
    (a :: l).Subperm (b :: l) ↔ a = b := by
  refine ⟨fun h => ?_, fun h => h ▸ List.Subperm.refl _⟩
  have hperm := h.perm_of_length_le (Nat.le_refl _)
  exact List.singleton_perm_singleton.1 ((List.perm_append_right_iff l).1 hperm)

theorem subperm_singleton_iff {v : Value} (hv : Canonical v) (hnull : v ≠ .null) {a : Value} :
    (entries v).Subperm [a] ↔ entries v = [a] := by
  refine ⟨fun h => ?_, fun h => h ▸ List.Subperm.refl _⟩
  obtain ⟨l, hperm, hsub⟩ := h
  rcases List.sublist_singleton.1 hsub with rfl | rfl
  · exact absurd ((entries_eq_nil hv).1 (List.nil_perm.1 hperm)) hnull
  · exact (List.singleton_perm.1 hperm).symm

section
variable {req : ConversationRequest} {v : Value} {n : FNode} {k : String}

/-- A child that the new list gets keeps what was cast, or is the one entry there was. -/
theorem keeps_new_child_iff (hv : Canonical v) (hn : n.WF) (hne : n.isEmpty = false)
    (hk : ((nodeFrom (appendedList req v)).child k).isEmpty = true) (r : Path) :
    Keeps v (val ((nodeFrom (appendedList req v)).set (k :: r) n)) (.dict req.entry) ↔
      ListCasts v ∨ entries v = [val (KeyTree.empty.set r n)] := by
  have hw := wf_nodeFrom (appendedList req v)
  have hval : val (nodeFrom (appendedList req v)) = appendedList req v :=
    canonical_appendedList req hv
  have hothers : (entries (val (nodeFrom (appendedList req v)))).Perm
      (entriesBut k (nodeFrom (appendedList req v))) := entries_no_child hw hk
  have hafter := entries_setChild hw k ((hw.child k).set r hn) (KeyTree.isEmpty_set hne)
  rw [KeyTree.eq_empty hk] at hafter
  rw [hval, entries_appendedList] at hothers
  rw [Keeps, KeyTree.set, KeyTree.eq_empty hk, (hafter.trans (hothers.symm.cons _)).subperm_left,
    ← List.cons_append, List.subperm_append_right]
  by_cases hcasts : ListCasts v
  · refine iff_of_true ?_ (.inl hcasts)
    rw [entries_of_casts hcasts]
    exact (List.sublist_cons_self _ _).subperm
  · have hnull : v ≠ .null := fun h => hcasts (.inl h)
    rw [cast_of_not_casts hcasts, or_iff_right hcasts]
    exact subperm_singleton_iff hv hnull

/-- A write below an entry of the new list keeps what was cast if it changes nothing. -/
theorem keeps_old_child_iff (hv : Canonical v) (hn : n.WF) (hne : n.isEmpty = false)
    (hk : ((nodeFrom (appendedList req v)).child k).isEmpty = false) (r : Path) :
    Keeps v (val ((nodeFrom (appendedList req v)).set (k :: r) n)) (.dict req.entry) ↔
      ListCasts v ∧ (nodeFrom (appendedList req v)).get (k :: r) = n := by
  have hw := wf_nodeFrom (appendedList req v)
  have hval : val (nodeFrom (appendedList req v)) = appendedList req v :=
    canonical_appendedList req hv
  have hothers := entries_child hw hk
  rw [hval, entries_appendedList] at hothers
  have hafter := entries_setChild hw k ((hw.child k).set r hn) (KeyTree.isEmpty_set hne)
  rw [Keeps, KeyTree.set, hafter.subperm_left]
  by_cases hcasts : ListCasts v
  · rw [entries_of_casts hcasts, hothers.subperm_right, cons_subperm_cons_iff,
      val_inj (hw.child k) ((hw.child k).set r hn), eq_comm, KeyTree.set_eq_self_iff (hw.child k),
      KeyTree.get_cons, and_iff_right hcasts]
  · refine iff_of_false (fun h => ?_) fun h => hcasts h.1
    have hlength := h.length_le
    have hlength' := hothers.length_eq
    rw [cast_of_not_casts hcasts] at hlength'
    simp only [List.length_append, List.length_cons, List.length_nil, Option.getD_none,
      List.map_nil] at hlength hlength'
    have hnil : entries v = [] := List.length_eq_zero_iff.1 (by omega)
    exact hcasts (.inl ((entries_eq_nil hv).1 hnil))

theorem child_appendedList_iff (hv : Canonical v) :
    ((nodeFrom (appendedList req v)).child k).isEmpty = true ↔
      ∀ i ≤ (v.asDictArray.getD []).length, k ≠ toString i := by
  have hdicts := canonical_appendedList req hv
  have hds := fun d hd => canonical_of_arr hdicts (List.mem_map_of_mem (f := Value.dict) (a := d) hd)
  rw [appendedList, child_ofDictArray_iff hds]
  simp only [List.length_append, List.length_singleton, Nat.lt_succ_iff]

/-- A conversation's node is in the new list only where it was in the old one. -/
theorem get_appendedList_iff (hcasts : ListCasts v) (r : Path) :
    (nodeFrom (appendedList req v)).get (k :: r) = nodeFrom (.dict req.node) ↔
      (nodeFrom v).get (k :: r) = nodeFrom (.dict req.node) := by
  have hne := (canonical_requestNode req).isEmpty_nodeFrom nofun
  rw [appendedList, get_ofDictArray_append_iff _ hne (get_entry_ne_node req r),
    nodeFrom_of_casts hcasts]

end

/-- When a call that stores a conversation as `node` at `q` keeps the list at `list`. -/
inductive ListKept (db : Database) (list q : Path) (node : Value) : Prop
  /-- The list can be cast, and the conversation is neither above nor below it. -/
  | apart (hcasts : ListCasts (db.value list)) (h : KeyTree.Apart q list)
  /-- The list can be cast, and the conversation is below it at a key without an entry. -/
  | unused (k : String) (r : Path) (hq : q = list ++ k :: r) (hcasts : ListCasts (db.value list))
    (h : ∀ i ≤ (entries (db.value list)).length, k ≠ toString i)
  /-- The list can be cast, and the conversation is below it and already there. -/
  | again (k : String) (r : Path) (hq : q = list ++ k :: r) (hcasts : ListCasts (db.value list))
    (h : db.value q = node)
  /-- The list is replaced, and its one entry is the conversation, which is written again. -/
  | only (k : String) (r : Path) (hq : q = list ++ k :: r) (hcasts : ¬ ListCasts (db.value list))
    (hk : k ≠ "0") (h : entries (db.value list) = [val (KeyTree.empty.set r (nodeFrom node))])

theorem ListKept.not_prefix {db : Database} {list q : Path} {node : Value}
    (h : ListKept db list q node) : ¬ q <+: list := by
  intro hpre
  have hbelow : ∀ k r, q ≠ list ++ k :: r := fun k r hq => by
    have hlength := hpre.length_le
    rw [hq, List.length_append, List.length_cons] at hlength
    omega
  cases h with
  | apart _ ha => exact KeyTree.not_apart_of_prefix hpre ha
  | unused k r hq | again k r hq | only k r hq => exact hbelow k r hq

theorem listKept_apart_iff {db : Database} {list q : Path} {node : Value}
    (ha : KeyTree.Apart q list) : ListKept db list q node ↔ ListCasts (db.value list) := by
  have hbelow : ∀ k r, q ≠ list ++ k :: r := fun k r hq =>
    KeyTree.not_apart_of_prefix (hq ▸ List.prefix_append _ _) ha.symm
  refine ⟨fun h => ?_, fun hcasts => .apart hcasts ha⟩
  cases h with
  | apart hcasts => exact hcasts
  | unused k r hq | again k r hq | only k r hq => exact absurd hq (hbelow k r)

theorem length_entries_of_casts {v : Value} (h : ListCasts v) :
    (entries v).length = (v.asDictArray.getD []).length := by
  rw [entries_of_casts h, List.length_map]

/-- Below the list, for a key of the new list and for another one. -/
theorem listKept_below_iff {db : Database} {list r : Path} {k : String} {node : Value} :
    ListKept db list (list ++ k :: r) node ↔
      ((∀ i ≤ ((db.value list).asDictArray.getD []).length, k ≠ toString i) ∧
          (ListCasts (db.value list) ∨
            entries (db.value list) = [val (KeyTree.empty.set r (nodeFrom node))])) ∨
        ListCasts (db.value list) ∧ db.value (list ++ k :: r) = node := by
  constructor
  · intro h
    cases h with
    | apart _ ha => exact absurd ha.symm (KeyTree.not_apart_of_prefix (List.prefix_append _ _))
    | unused k' r' hq hcasts hk =>
      cases List.append_cancel_left hq
      rw [length_entries_of_casts hcasts] at hk
      exact .inl ⟨hk, .inl hcasts⟩
    | again k' r' hq hcasts hk => exact .inr ⟨hcasts, hk⟩
    | only k' r' hq hcasts hk honly =>
      cases List.append_cancel_left hq
      refine .inl ⟨fun i hi => ?_, .inr honly⟩
      rw [cast_of_not_casts hcasts] at hi
      cases hi
      exact hk
  · intro h
    rcases h with ⟨hk, h⟩ | ⟨hcasts, h⟩
    · by_cases hcasts : ListCasts (db.value list)
      · exact .unused k r rfl hcasts (by rwa [length_entries_of_casts hcasts])
      · exact .only k r rfl hcasts (hk 0 (Nat.zero_le _)) (h.resolve_left hcasts)
    · exact .again k r rfl hcasts h

/-- A conversation above the list, or in its place. -/
theorem keeps_above_iff {req : ConversationRequest} {db : Database} (db₁ : Database) {p q : Path}
    (hpre : q <+: p ++ ["conversations"]) :
    Keeps (db.value (p ++ ["conversations"]))
        ((db₁.setValue q (.dict req.node)).value (p ++ ["conversations"])) (.dict req.entry) ↔
      ListKept db (p ++ ["conversations"]) q (.dict req.node) := by
  refine iff_of_false (fun h => ?_) fun h => h.not_prefix hpre
  exact list_of_conversationNode req db₁ rfl hpre (h.subset (List.mem_append_right _ (.head _)))

/-- A conversation below the list. -/
theorem keeps_below_iff {req : ConversationRequest} {db : Database} {p : Path}
    {userNode : List (String × Value)} (hv : db.value p = .dict userNode) (k : String) (r : Path) :
    Keeps (db.value (p ++ ["conversations"]))
        (((db.setValue p (appendConversation req.entry (db.value p))).setValue
          (p ++ ["conversations"] ++ k :: r) (.dict req.node)).value (p ++ ["conversations"]))
        (.dict req.entry) ↔
      ListKept db (p ++ ["conversations"]) (p ++ ["conversations"] ++ k :: r) (.dict req.node) := by
  have hlist := value_appendConversation req hv
  generalize p ++ ["conversations"] = list at hlist ⊢
  generalize db.setValue p (appendConversation req.entry (db.value p)) = db₁ at hlist ⊢
  have hcanon := db.canonical_value list
  have hn := wf_nodeFrom (.dict req.node)
  have hne := (canonical_requestNode req).isEmpty_nodeFrom nofun
  have hget : ListCasts (db.value list) →
      ((nodeFrom (appendedList req (db.value list))).get (k :: r) = nodeFrom (.dict req.node) ↔
        db.value (list ++ k :: r) = .dict req.node) := fun hcasts => by
    rw [get_appendedList_iff hcasts, Database.value_eq_iff (canonical_requestNode req),
      KeyTree.get_append, db.nodeFrom_value]
  rw [Database.value_setValue_append, hlist, listKept_below_iff, ← child_appendedList_iff hcanon]
  cases hk : ((nodeFrom (appendedList req (db.value list))).child k).isEmpty with
  | true =>
    rw [keeps_new_child_iff hcanon hn hne hk]
    refine ⟨fun h => .inl ⟨rfl, h⟩, fun h => ?_⟩
    rcases h with ⟨-, h⟩ | ⟨hcasts, -⟩
    · exact h
    · exact .inl hcasts
  | false =>
    rw [keeps_old_child_iff hcanon hn hne hk]
    simp only [Bool.false_eq_true, false_and, false_or]
    exact and_congr_right hget

theorem createNewConversation_keeps_iff {req : ConversationRequest} {db db' : Database}
    {o : List Bool} {p q : Path} (hp : child req.userKey = some p)
    (hq : child req.conversationKey = some q) (h : exec req.call db o = (db', .ret true)) :
    Keeps (db.value (p ++ ["conversations"])) (db'.value (p ++ ["conversations"]))
        (.dict req.entry) ↔ ListKept db (p ++ ["conversations"]) q (.dict req.node) := by
  rcases ConversationRequest.exec_call_cases h with ⟨-, hr⟩ |
    ⟨p', userNode, hp', hv, ⟨-, hr | ⟨hr, -⟩⟩ | ⟨q', hq', rfl, -⟩⟩
  · exact absurd rfl hr
  · cases hr
  · cases hr
  · obtain rfl := Option.some.inj (hp.symm.trans hp')
    obtain rfl := Option.some.inj (hq.symm.trans hq')
    rw [ConversationRequest.createdData]
    rcases KeyTree.apart_or_prefix q (p ++ ["conversations"]) with ha | hpre | ⟨s, rfl⟩
    · rw [Database.value_setValue_apart _ _ ha, value_appendConversation req hv,
        keeps_append_iff (entries_appendedList req _),
        entries_subperm_iff (db.canonical_value _), listKept_apart_iff ha]
    · exact keeps_above_iff _ hpre
    · cases s with
      | nil => exact keeps_above_iff _ (by simp)
      | cons k r => exact keeps_below_iff hv k r

/-- **When a call that completes keeps what is stored.** For a user: nothing is stored in the
directory, or it reads as an array of string dictionaries. For a conversation: nothing is stored in
the list, or it reads as an array of dictionaries, and the conversation does not take its place or
that of an entry. -/
theorem appends_keep_iff (db db' : Database) (o : List Bool) :
    (∀ user, exec (DatabaseManager.insertUser user) db o = (db', .ret true) →
      (Keeps (db.value ["users"]) (db'.value ["users"]) (.ofStringDict user.newUser) ↔
        DirectoryCasts db user)) ∧
    ∀ (req : ConversationRequest) (p q : Path), child req.userKey = some p →
      child req.conversationKey = some q → exec req.call db o = (db', .ret true) →
      (Keeps (db.value (p ++ ["conversations"])) (db'.value (p ++ ["conversations"]))
          (.dict req.entry) ↔
        ListKept db (p ++ ["conversations"]) q (.dict req.node)) :=
  ⟨fun _ h => insertUser_keeps_iff h, fun _ _ _ hp hq h => createNewConversation_keeps_iff hp hq h⟩

/-- The database after Ada's first conversation. -/
def firstCreated : Database :=
  (twoRequests true).createdData registered ["ada-mail-com"] ["conversation_first"]

theorem appends_keep_first :
    (Keeps (Database.empty.value ["users"]) (registered.value ["users"])
        (.ofStringDict (twoUsers true).newUser) ↔ DirectoryCasts .empty (twoUsers true)) ∧
      (Keeps (registered.value ["ada-mail-com", "conversations"])
          (firstCreated.value ["ada-mail-com", "conversations"]) (.dict (twoRequests true).entry) ↔
        ListKept registered ["ada-mail-com", "conversations"] ["conversation_first"]
          (.dict (twoRequests true).node)) :=
  ⟨(appends_keep_iff .empty registered []).1 (twoUsers true) (by rfl),
    (appends_keep_iff registered firstCreated []).2 (twoRequests true) ["ada-mail-com"]
      ["conversation_first"] (twoRequests_user true) (by decide +kernel) (by rfl)⟩

/-- Two users are registered and the first entry of the directory is removed: it reads as an array
with a hole. -/
def holedDirectory : Database :=
  (Database.empty.setValue ["users"] (.ofStringDictArray
    [(twoUsers true).newUser, (twoUsers false).newUser])).setValue ["users", "0"] .null

/-- The next registration completes with `true` and removes the other entry. -/
theorem entries_replaced :
    holedDirectory.value ["users"] = .arr [.null, .ofStringDict (twoUsers false).newUser] ∧
      ∃ db', exec (DatabaseManager.insertUser ⟨"Zain", "Ali", "zain@mail.com"⟩) holedDirectory [] =
          (db', .ret true) ∧
        ¬ Keeps (holedDirectory.value ["users"]) (db'.value ["users"])
          (.ofStringDict (ChatAppUser.newUser ⟨"Zain", "Ali", "zain@mail.com"⟩)) := by
  refine ⟨by rfl, _, rfl, fun h => ?_⟩
  exact absurd h.length_le (by decide +kernel)

end IChat
