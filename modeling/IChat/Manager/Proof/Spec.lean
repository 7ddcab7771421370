import IChat.Async.Proof.Append
import IChat.Manager.DatabaseManager

/-!
# What the operations do

One equation for each operation that merges its branches (`insertUser_eq`,
`createNewConversation_eq`): a collection that cannot be cast counts as empty. From it, the
operation's footprint, and its shape as an update of the directory or of the user's node.
-/

namespace IChat

open Async Firebase SortedMap

/-! ## The dictionaries written -/

theorem canonical_node (user : ChatAppUser) : Canonical (.ofStringDict user.node) :=
  canonical_ofStringDict (sorted_ofList _)
    ⟨_, .head _, (by decide : arrayIndex "first_name" = none)⟩

theorem canonical_newUser (user : ChatAppUser) : Canonical (.ofStringDict user.newUser) :=
  canonical_ofStringDict (sorted_ofList _) ⟨_, .head _, (by decide : arrayIndex "name" = none)⟩

section
variable (dateFormatter : DateFormatter) (otherUserEmail otherUserName : String)
  (firstMessage : Message)

theorem canonical_newConversationData : Canonical
    (.dict (newConversationData dateFormatter otherUserEmail otherUserName firstMessage)) := by
  refine canonical_ofList ?_ (by decide)
  simp only [List.forall_mem_cons, canonical_str, true_and]
  exact ⟨nofun, nofun, nofun, ⟨rfl, nofun⟩, nofun⟩

theorem canonical_messageData (userEmail : String) :
    Canonical (.dict (messageData userEmail dateFormatter otherUserName firstMessage)) := by
  refine canonical_ofList ?_ (by decide)
  simp only [List.forall_mem_cons, canonical_str, true_and]
  exact ⟨nofun, nofun, nofun, nofun, nofun, ⟨rfl, nofun⟩, nofun, nofun⟩

theorem canonical_conversationNode {message : List (String × Value)}
    (h : Canonical (.dict message)) : Canonical (.dict (conversationNode message)) := by
  refine canonical_ofList ?_ (by decide)
  simp only [List.forall_mem_cons]
  exact ⟨⟨canonical_append canonical_null h, nofun⟩, nofun⟩

end

/-! ## Merged branches -/

theorem child_users : child "users" = some ["users"] := by decide

/-- The directory with one more user. -/
def appendUser (user : ChatAppUser) (directory : Value) : Value :=
  .ofStringDictArray (directory.asStringDictArray.getD [] ++ [user.newUser])

/-- The user's node with one more entry in its `conversations`. -/
def appendConversation (entry : List (String × Value)) : Value → Value
  | .dict userNode =>
    let conversations := ((find "conversations" userNode).bind Value.asDictArray).getD []
    .dict (insert "conversations" (.ofDictArray (conversations ++ [entry])) userNode)
  | value => value

namespace DatabaseManager

theorem insertUser_eq (user : ChatAppUser) :
    insertUser user = atChild user.safeEmail fun node =>
      setValue node (.ofStringDict user.node) <|
        observeSingleEvent ["users"] fun value =>
          setValue ["users"] (appendUser user value) (.ret true) := by
  unfold insertUser
  congr 1
  funext node
  congr 1
  rw [atChild, child_users]
  refine congrArg (observeSingleEvent ["users"]) (funext fun value => ?_)
  unfold appendUser
  cases value.asStringDictArray <;> rfl

theorem createNewConversation_eq (self : DatabaseManager) (dateFormatter : DateFormatter)
    (otherUserEmail otherUserName : String) (firstMessage : Message) :
    self.createNewConversation dateFormatter otherUserEmail otherUserName firstMessage =
      atChild (safeEmail self.userEmail) fun refrence =>
        observeSingleEvent refrence fun value =>
          if value.asDict.isNone then .ret false
          else setValue refrence
            (appendConversation
              (newConversationData dateFormatter otherUserEmail otherUserName firstMessage) value)
            (self.finishCreateConversation dateFormatter otherUserName
              firstMessage.conversationId firstMessage) := by
  unfold createNewConversation
  congr 1
  funext refrence
  refine congrArg (observeSingleEvent refrence) (funext fun value => ?_)
  cases value with
  | dict userNode =>
    simp only [Value.asDict_dict, appendConversation, Option.isNone_some, Bool.false_eq_true,
      ↓reduceIte]
    cases (find "conversations" userNode).bind Value.asDictArray <;> rfl
  | null | leaf | arr => rfl

end DatabaseManager

/-! ## What is appended -/

section
variable {ι : Type}

/-- The value of `conversations` in a user's node. -/
def conversationsField (node : Value) : Value := node.field "conversations"

theorem stored_appendUser {user : ChatAppUser} {v : Value} (h : Canonical v) :
    stored (appendUser user v) = appendUser user v :=
  canonical_append_string h (canonical_newUser user)

theorem entries_appendUser (user : ChatAppUser) (v : Value) : entries (appendUser user v) =
    (v.asStringDictArray.getD []).map .ofStringDict ++ [.ofStringDict user.newUser] := by
  rw [appendUser, entries_ofStringDictArray, List.map_append]
  rfl

theorem appendConversation_dict (entry userNode : List (String × Value)) :
    appendConversation entry (.dict userNode) = .dict (insert "conversations"
      (.ofDictArray ((conversationsField (.dict userNode)).asDictArray.getD [] ++ [entry]))
      userNode) := by
  simp only [appendConversation, conversationsField, Value.field]
  cases find "conversations" userNode <;> rfl

theorem canonical_conversationsField {userNode : List (String × Value)}
    (h : Canonical (.dict userNode)) : Canonical (conversationsField (.dict userNode)) :=
  canonical_field h "conversations"

theorem stored_appendConversation {entry userNode : List (String × Value)}
    (h : Canonical (.dict userNode)) (he : Canonical (.dict entry)) :
    stored (appendConversation entry (.dict userNode)) =
      appendConversation entry (.dict userNode) := by
  rw [appendConversation_dict]
  exact canonical_insert h (canonical_append (canonical_conversationsField h) he) nofun (by decide)

theorem conversationsField_append (entry userNode : List (String × Value)) :
    conversationsField (appendConversation entry (.dict userNode)) =
      .ofDictArray ((conversationsField (.dict userNode)).asDictArray.getD [] ++ [entry]) := by
  rw [appendConversation_dict]
  generalize Value.asDictArray _ = ds
  simp only [conversationsField, Value.field, find_insert_self, Option.getD_some]

/-- **Registrations append to the directory**; one that is no array of string dictionaries is
dropped. -/
theorem appendUser_appending (users : ι → ChatAppUser) :
    Appending Database (fun i => appendUser (users i)) Canonical
      (fun v => entries v = [] ∨ v.asStringDictArray.isSome) entries
      (fun i => .ofStringDict (users i).newUser) where
  valid i v _ := canonical_stored _
  good i v h := by
    rw [mem_norm, stored_appendUser h]
    exact .inr (by rw [appendUser, Value.asStringDictArray_eq_some.2 rfl]; rfl)
  append i v h hg := by
    rw [mem_norm, stored_appendUser h, entries_appendUser]
    cases hc : v.asStringDictArray with
    | none => rw [hc] at hg; rw [hg.resolve_right nofun]; rfl
    | some ds =>
      conv_rhs => rw [Value.asStringDictArray_eq_some.1 hc, entries_ofStringDictArray]
      rfl
  drop i v h hg := by
    obtain ⟨hne, hc⟩ := not_or.1 hg
    rw [mem_norm, stored_appendUser h, entries_appendUser, Option.not_isSome_iff_eq_none.1 hc]
    exact ⟨hne, rfl⟩

/-- **New conversations append to the list in the user's node**; one that is no array of
dictionaries is dropped. -/
theorem appendConversation_appending {entry : ι → List (String × Value)}
    (he : ∀ i, Canonical (.dict (entry i))) :
    Appending Database (fun i => appendConversation (entry i))
      (fun v => Canonical v ∧ ∃ userNode, v = .dict userNode)
      (fun v => entries (conversationsField v) = [] ∨ (conversationsField v).asDictArray.isSome)
      (fun v => entries (conversationsField v)) (fun i => .dict (entry i)) where
  valid := by
    rintro i _ ⟨h, userNode, rfl⟩
    refine ⟨canonical_stored _, ?_⟩
    rw [mem_norm, stored_appendConversation h (he i)]
    exact ⟨_, rfl⟩
  good := by
    rintro i _ ⟨h, userNode, rfl⟩
    rw [mem_norm, stored_appendConversation h (he i), conversationsField_append]
    exact .inr (by rw [Value.asDictArray_eq_some.2 rfl]; rfl)
  append := by
    rintro i _ ⟨h, userNode, rfl⟩ hg
    rw [mem_norm, stored_appendConversation h (he i), conversationsField_append,
      entries_ofDictArray, List.map_append]
    cases hc : (conversationsField (.dict userNode)).asDictArray with
    | none => rw [hc] at hg; rw [hg.resolve_right nofun]; rfl
    | some ds =>
      conv_rhs => rw [Value.asDictArray_eq_some.1 hc, entries_ofDictArray]
      rfl
  drop := by
    rintro i _ ⟨h, userNode, rfl⟩ hg
    obtain ⟨hne, hc⟩ := not_or.1 hg
    rw [mem_norm, stored_appendConversation h (he i), conversationsField_append,
      entries_ofDictArray, Option.not_isSome_iff_eq_none.1 hc]
    exact ⟨hne, rfl⟩

end

/-! ## Where the operations read and write -/

section
variable {F : Path → Prop} {ρ : Type}

theorem within_atChild {R : ρ → Prop} {s : String} {k : Path → Call ρ}
    (h : ∀ p, child s = some p → Within F R (k p)) : Within F R (atChild s k) := by
  unfold atChild
  cases hs : child s with
  | none => exact .raise
  | some p => exact h p hs

theorem within_setValue {R : Bool → Prop} {p : Path} {v : Value} {k : Call Bool} (hp : F p)
    (hk : Within F R k) (hf : R false) : Within F R (setValue p v k) := by
  refine .write hp fun ok => ?_
  cases ok
  · exact .ret hf
  · exact hk

theorem updates_atChild {p : Path} {f : Value → Value} {S : ρ → Prop} {s : String}
    {k : Path → Call ρ} (h : ∀ q, child s = some q → Updates Database p f S (k q)) :
    Updates Database p f S (atChild s k) := by
  unfold atChild
  cases hs : child s with
  | none => exact .away .raise
  | some q => exact h q hs

end

namespace DatabaseManager

/-- The paths of `insertUser`: the user's node and the directory. -/
def InsertUserAt (user : ChatAppUser) (p : Path) : Prop :=
  child user.safeEmail = some p ∨ p = ["users"]

/-- The paths of `createNewConversation`: the caller's node and the conversation's. -/
def CreateAt (self : DatabaseManager) (firstMessage : Message) (p : Path) : Prop :=
  child (safeEmail self.userEmail) = some p ∨ child firstMessage.conversationId = some p

theorem insertUser_within (user : ChatAppUser) :
    Within (InsertUserAt user) (fun _ => True) (insertUser user) := by
  rw [insertUser_eq]
  refine within_atChild fun p hp => within_setValue (.inl hp) ?_ trivial
  exact .read (.inr rfl) fun v => within_setValue (.inr rfl) (.ret trivial) trivial

section
variable (self : DatabaseManager) (dateFormatter : DateFormatter)
  (otherUserEmail otherUserName : String) (firstMessage : Message)

theorem finishCreateConversation_within : Within
    (fun p => child firstMessage.conversationId = some p) (fun _ => True)
    (self.finishCreateConversation dateFormatter otherUserName firstMessage.conversationId
      firstMessage) :=
  within_atChild fun _ hp => within_setValue hp (.ret trivial) trivial

theorem createNewConversation_within : Within (self.CreateAt firstMessage) (fun _ => True)
    (self.createNewConversation dateFormatter otherUserEmail otherUserName firstMessage) := by
  rw [createNewConversation_eq]
  refine within_atChild fun p hp => .read (.inl hp) fun v => ?_
  split
  · exact .ret trivial
  · exact within_setValue (.inl hp) ((self.finishCreateConversation_within dateFormatter
      otherUserName firstMessage).mono (fun _ => .inr) fun _ => id) trivial

end

/-- A registration updates the directory. -/
theorem insertUser_updates {user : ChatAppUser}
    (h : ∀ p, child user.safeEmail = some p → KeyTree.Apart p ["users"]) :
    Updates Database ["users"] (appendUser user) (· = true) (insertUser user) := by
  rw [insertUser_eq]
  refine updates_atChild fun p hp => .write (h p hp) fun ok => ?_
  cases ok
  · exact .away (.ret nofun)
  · exact .here fun v => .inr ⟨_, rfl, .ret trivial, .ret nofun⟩

/-- A new conversation updates the caller's node. -/
theorem createNewConversation_updates {self : DatabaseManager} (dateFormatter : DateFormatter)
    (otherUserEmail otherUserName : String) {firstMessage : Message} {user : Path}
    (huser : child (safeEmail self.userEmail) = some user)
    (h : ∀ p, child firstMessage.conversationId = some p → KeyTree.Apart p user) :
    Updates Database user (appendConversation
      (newConversationData dateFormatter otherUserEmail otherUserName firstMessage)) (· = true)
      (self.createNewConversation dateFormatter otherUserEmail otherUserName firstMessage) := by
  rw [createNewConversation_eq]
  refine updates_atChild fun p hp => ?_
  rw [huser] at hp
  cases hp
  refine .here fun v => ?_
  split
  · exact .inl (.ret nofun)
  · refine .inr ⟨_, rfl, ?_, .ret nofun⟩
    exact (self.finishCreateConversation_within dateFormatter otherUserName firstMessage).mono h
      fun _ => id

end DatabaseManager

end IChat
