import IChat.Controllers.Chat
import IChat.Manager.Proof.FailedConversations

/-!
# Message ids and sent messages

A conversation's node is addressed by the message id: recipient, sender and the printed second.
Sends whose ids name nodes apart keep their messages and leave the ids in the users' lists
different, in every interleaving; the message names the account that pressed Send if
`DatabaseManager.shared` is of that account (`sends_keep_messages`). Two sends of a user to one
recipient within a second share an id, and the second overwrites the first
(`sent_message_overwritten`).
-/

namespace IChat

open Async Firebase SortedMap

variable {ι : Type}

/-- The ids in a user's node. -/
def conversationIds (node : Value) : List String :=
  (entries (conversationsField node)).filterMap fun entry => (entry.field "id").asString

/-- The one message at the node is the text that was sent, from the account that pressed Send. -/
def Send.HeldAt (send : Send) (node : Value) : Prop :=
  ∃ message, (node.field "messages").asDictArray = some [message] ∧
    find "id" message = some (.str send.createRandomEMessageId) ∧
    find "type" message = some (.str "text") ∧
    find "content" message = some (.str send.text) ∧
    find "date" message = some (.str (send.dateFormatter.string send.sentDate)) ∧
    find "sendr_email" message = some (.str send.currentUser)

/-- The keys of the requests and of the users, the senders among them: no conversation is at the
node of another or of a user, inside it or above it, and different users' nodes are apart. -/
structure KeysSeparate (users : Set String) (reqs : ι → ConversationRequest) : Prop where
  conversations : ∀ i j, i ≠ j → KeysApart (reqs i).conversationKey (reqs j).conversationKey
  cross : ∀ i, ∀ user ∈ users, KeysApart (reqs i).conversationKey user
  apart : ∀ user ∈ users, ∀ user' ∈ users, user = user' ∨ KeysApart user user'
  senders : ∀ i, (reqs i).userKey ∈ users

/-- The presses of Send that create a conversation. -/
abbrev Creating (s : ι → Send) := {i // (s i).creates = true}

/-! ## Messages stay -/

/-- A call publishes its message. -/
theorem ConversationRequest.call_publishes {req : ConversationRequest} {q : Path}
    (hq : child req.conversationKey = some q)
    (hcross : KeysApart req.conversationKey req.userKey) :
    Publishes Database q (.dict req.node) (· = true) req.call := by
  unfold ConversationRequest.call
  rw [DatabaseManager.createNewConversation_eq]
  unfold atChild
  cases hp : child (safeEmail req.manager.userEmail) with
  | none => exact .away .raise
  | some p =>
    refine .read fun v => ?_
    split
    · exact .away (.ret nofun)
    · refine .write (hcross q p hq hp).symm fun ok => ?_
      cases ok
      · exact .away (.ret nofun)
      · simp only [↓reduceIte, DatabaseManager.finishCreateConversation, atChild]
        rw [show child req.firstMessage.conversationId = some q from hq]
        exact .here (.ret trivial) (.ret nofun)

/-- A call whose conversation has no legal path does not complete with `true`. -/
theorem ConversationRequest.call_within_illegal {req : ConversationRequest}
    (hq : child req.conversationKey = none) :
    Within (fun _ => True) (fun r => ¬ r = true) req.call := by
  unfold ConversationRequest.call
  rw [DatabaseManager.createNewConversation_eq]
  refine within_atChild fun p _ => .read trivial fun v => ?_
  split
  · exact .ret nofun
  · refine within_setValue trivial ?_ nofun
    unfold DatabaseManager.finishCreateConversation atChild
    rw [show child req.firstMessage.conversationId = none from hq]
    exact .raise

section
variable {users : Set String} {s : ι → Send} {db : Database} {fates : ι → List Bool}

/-- A property of `stop`, and of the call if there is one, holds of a press of Send. -/
theorem Send.inputBar_of {P : Call Bool → Prop} (send : Send) (hstop : P .stop)
    (hcall : send.creates = true → P send.request.call) : P send.inputBar := by
  unfold inputBar
  split
  · rename_i h; exact hcall h
  · exact hstop

/-- What another press of Send touches is apart from the conversation. -/
theorem inputBar_away (hkeys : KeysSeparate users fun i : Creating s => (s i).request) {i j : ι}
    (hi : (s i).creates = true) (hij : j ≠ i) {q : Path}
    (hq : child (s i).request.conversationKey = some q) :
    Away Database q (fun _ => True) (s j).inputBar := by
  refine (s j).inputBar_of .stop fun hj => (s j).request.call_within.mono (fun p hp => ?_)
    fun _ => id
  rcases hp with hp | hp
  · exact (hkeys.cross ⟨i, hi⟩ _ (hkeys.senders ⟨j, hj⟩) q p hq hp).symm
  · exact hkeys.conversations ⟨j, hj⟩ ⟨i, hi⟩ (fun h => hij (congrArg Subtype.val h)) p q hp hq

/-- Only a press of Send that creates a conversation completes. -/
theorem creates_of_answer [DecidableEq ι] {sched : List ι} {i : ι} {r : Bool}
    (hi : (((sends db s fates).run sched).jobs i).prog = .ret r) : (s i).creates = true := by
  have hwithin := Config.within_run (F := fun _ _ => True)
    (R := fun j _ => (s j).creates = true) (c := sends db s fates) (fun j => ?_) sched i
  · rw [hi] at hwithin
    exact hwithin.answer
  · rw [sends_prog]
    exact (s j).inputBar_of .stop fun hj =>
      (s j).request.call_within.mono (fun _ _ => trivial) fun _ _ => hj

/-- With the manager of the account signed in, what a call stores names this account. -/
theorem Send.heldAt_node {send : Send} (h : send.manager.userEmail = send.currentUser) :
    send.HeldAt (.dict send.request.node) :=
  ⟨messageData send.manager.userEmail send.dateFormatter (send.chat.title.getD "User")
    send.request.firstMessage, rfl, rfl, rfl, rfl, rfl, congrArg (fun e => some (Value.str e)) h⟩

/-- A press of Send that completed with `true` has its message at the end of the run. -/
theorem sends_hold [DecidableEq ι] (hkeys : KeysSeparate users fun i : Creating s => (s i).request)
    (hsender : ∀ i, (s i).creates = true → (s i).manager.userEmail = (s i).currentUser)
    (sched : List ι) {i : ι}
    (hi : (((sends db s fates).run sched).jobs i).prog = .ret true) :
    ∃ q, child (s i).request.conversationKey = some q ∧
      (s i).HeldAt (((sends db s fates).run sched).store.value q) := by
  cases hq : child (s i).request.conversationKey with
  | none =>
    have hwithin := Config.within_run (F := fun _ _ => True)
      (R := fun j r => j = i → ¬ r = true) (c := sends db s fates) (fun j => ?_) sched i
    · rw [hi] at hwithin
      exact absurd rfl (hwithin.answer rfl)
    · rw [sends_prog]
      refine (s j).inputBar_of .stop fun _ => ?_
      by_cases hj : j = i
      · subst hj
        exact (ConversationRequest.call_within_illegal hq).mono (fun _ => id) fun _ h _ => h
      · exact (s j).request.call_within.mono (fun _ _ => trivial) fun _ _ h => absurd h hj
  | some q =>
    refine ⟨q, rfl, ?_⟩
    have hc := creates_of_answer hi
    have hvalue := Config.run_published (c := sends db s fates) (w := .dict (s i).request.node)
      (S := (· = true)) (p := q) (i := i)
      (by rw [sends_prog]
          exact (s i).inputBar_of (.away .stop) fun _ =>
            ConversationRequest.call_publishes hq
              (hkeys.cross ⟨i, hc⟩ _ (hkeys.senders ⟨i, hc⟩)))
      (fun j hj => by rw [sends_prog]; exact inputBar_away hkeys hc hj hq) sched hi rfl
    rw [mem_get, mem_norm, canonical_requestNode] at hvalue
    rw [hvalue]
    exact Send.heldAt_node (hsender i hc)

end

/-! ## Ids stay different -/

/-- One more entry, and at most those before. -/
theorem conversationIds_append {req : ConversationRequest} {v : Value} (hv : Canonical v) :
    (conversationIds (stored (appendConversation req.entry v))).Sublist
      (conversationIds v ++ [req.conversationKey]) := by
  cases v with
  | dict userNode =>
    rw [conversationIds, stored_appendConversation hv (canonical_entry _),
      conversationsField_append, entries_ofDictArray, List.map_append, List.filterMap_append]
    refine List.Sublist.append (List.Sublist.filterMap _ ?_) (List.Sublist.refl _)
    cases hd : (conversationsField (.dict userNode)).asDictArray with
    | none => exact List.nil_sublist _
    | some ds => rw [Value.asDictArray_eq_some.1 hd, entries_ofDictArray]; rfl
  | null | leaf | arr =>
    simp only [appendConversation]
    rw [hv]
    exact List.sublist_append_left _ _

/-- After any updates of a user's node the ids are some of those before and of the new ones. -/
theorem conversationIds_chain (reqs : ι → ConversationRequest) {v : Value} (hv : Canonical v)
    (L : List ι) :
    (conversationIds (chain Database (fun i => appendConversation (reqs i).entry) v L)).Sublist
      (conversationIds v ++ L.map fun i => (reqs i).conversationKey) := by
  induction L using List.reverseRecOn with
  | nil => rw [chain_nil, List.map_nil, List.append_nil]
  | append_singleton L i ih =>
    have hc : Canonical (chain Database (fun i => appendConversation (reqs i).entry) v L) := by
      cases L using List.reverseRecOn with
      | nil => exact hv
      | append_singleton L j => rw [chain_concat]; exact canonical_stored _
    rw [chain_concat, mem_norm, List.map_append, ← List.append_assoc]
    exact (conversationIds_append hc).trans (ih.append (List.Sublist.refl _))

section
variable {users : Set String} {s : ι → Send} {db : Database} {fates : ι → List Bool}

/-- A press of Send by the user of the node updates it; one by another user stays away. -/
theorem inputBar_updates (hkeys : KeysSeparate users fun i : Creating s => (s i).request) {p : Path}
    {i : ι} (hp : child (s i).request.userKey = some p) :
    Updates Database p (appendConversation (s i).request.entry) (· = true) (s i).inputBar :=
  (s i).inputBar_of (.away .stop) fun hi => DatabaseManager.createNewConversation_updates _ _ _ hp
    fun q hq => hkeys.cross ⟨i, hi⟩ _ (hkeys.senders ⟨i, hi⟩) q p hq hp

theorem inputBar_away_user (hkeys : KeysSeparate users fun i : Creating s => (s i).request) {i : ι}
    {user : String} (huser : user ∈ users) {p : Path} (hp : child user = some p)
    (hi : (s i).request.userKey ≠ user) : Away Database p (fun _ => True) (s i).inputBar := by
  refine (s i).inputBar_of .stop fun hc => (s i).request.call_within.mono (fun q hq => ?_)
    fun _ => id
  rcases hq with hq | hq
  · exact (hkeys.apart _ (hkeys.senders ⟨i, hc⟩) user huser).resolve_left hi q p hq hp
  · exact hkeys.cross ⟨i, hc⟩ user huser q p hq hp

/-- The ids in the list of a user stay pairwise different. -/
theorem sends_ids_nodup [DecidableEq ι]
    (hkeys : KeysSeparate users fun i : Creating s => (s i).request)
    (hids : ∀ i j, (s i).creates = true → (s j).creates = true →
      (s i).createRandomEMessageId = (s j).createRandomEMessageId → i = j)
    {user : String} (huser : user ∈ users) {p : Path} (hp : child user = some p)
    (hstart : (conversationIds (db.value p)).Nodup)
    (hnew : ∀ i, (s i).creates = true →
      (s i).request.conversationKey ∉ conversationIds (db.value p))
    (sched : List ι) :
    (conversationIds (((sends db s fates).run sched).store.value p)).Nodup := by
  obtain ⟨L, W, hL, -, hsub, -, hW, -, hval, -⟩ := Config.run_chain
    (c := sends db s fates) (p := p) (S := (· = true))
    (f := fun i => appendConversation (s i).request.entry)
    (B := fun i => (s i).creates = false ∨ (s i).request.userKey ≠ user)
    (fun i hi => by
      rw [sends_prog]
      obtain ⟨-, hi⟩ := not_or.1 hi
      exact inputBar_updates hkeys ((not_not.1 hi).symm ▸ hp))
    (fun i hi => by
      rw [sends_prog]
      rcases hi with hi | hi
      · exact (s i).inputBar_of .stop fun hc => by rw [hi] at hc; cases hc
      · exact inputBar_away_user hkeys huser hp hi) sched
  have hcreates : ∀ i ∈ L, (s i).creates = true := fun i hi => by
    simpa using (not_or.1 (hW i (hsub hi))).1
  rw [mem_get] at hval
  rw [hval]
  refine (conversationIds_chain (fun i => (s i).request) (db.canonical_value p) L).nodup ?_
  refine List.nodup_append.2 ⟨hstart, hL.map_on fun i hi i' hi' he => ?_, fun a ha b hb he => ?_⟩
  · exact hids i i' (hcreates i hi) (hcreates i' hi') (conversationKey_inj he)
  · obtain ⟨i, hi, rfl⟩ := List.mem_map.1 hb
    exact hnew i (hcreates i hi) (he ▸ ha)

/-- **Sent messages stay, and ids stay different, when no two ids name nodes that meet.** For every
run of presses of Send with any interleaving, failures and clock times, where each is sent through
the manager of the account signed in: each that completed with `true` has a conversation's node of
its own, with its text and its sender, and the ids in every user's list are pairwise different. -/
theorem sends_keep_messages [DecidableEq ι]
    (hkeys : KeysSeparate users fun i : Creating s => (s i).request)
    (hsender : ∀ i, (s i).creates = true → (s i).manager.userEmail = (s i).currentUser)
    (hids : ∀ i j, (s i).creates = true → (s j).creates = true →
      (s i).createRandomEMessageId = (s j).createRandomEMessageId → i = j)
    (hstart : ∀ user ∈ users, ∀ p, child user = some p →
      (conversationIds (db.value p)).Nodup ∧ ∀ i, (s i).creates = true →
        (s i).request.conversationKey ∉ conversationIds (db.value p))
    (sched : List ι) :
    let final := (sends db s fates).run sched
    (∀ i, (final.jobs i).prog = .ret true → ∃ q, child (s i).request.conversationKey = some q ∧
        (s i).HeldAt (final.store.value q) ∧
        ∀ j q', j ≠ i → (s j).creates = true → child (s j).request.conversationKey = some q' →
          KeyTree.Apart q q') ∧
      ∀ user ∈ users, ∀ p, child user = some p →
        (conversationIds (final.store.value p)).Nodup := by
  refine ⟨fun i hi => ?_, fun user huser p hp => ?_⟩
  · obtain ⟨q, hq, hheld⟩ := sends_hold hkeys hsender sched hi
    refine ⟨q, hq, hheld, fun j q' hij hj hq' => ?_⟩
    have hne : (⟨i, creates_of_answer hi⟩ : Creating s) ≠ ⟨j, hj⟩ := fun he =>
      hij (congrArg Subtype.val he).symm
    exact hkeys.conversations _ _ hne q q' hq hq'
  · obtain ⟨hnodup, hnew⟩ := hstart user huser p hp
    exact sends_ids_nodup hkeys hids huser hp hnodup hnew sched

end

/-- Two presses of Send in one chat, for times of the clock. -/
def twoSends (date : Bool → Date) (i : Bool) : Send where
  chat := ⟨"omar-mail-com", some "Omar Adel", true⟩
  currentUser := "ada@mail.com"
  manager := ⟨"ada@mail.com"⟩
  dateFormatter := ⟨toString⟩
  idDate := date i
  sentDate := date i
  text := if i then "hello" else "are you there?"

/-- Half a second and one and a half seconds after the start. -/
def secondApart (i : Bool) : Date := if i then 1 / 2 else 3 / 2

/-- The two messages are at nodes of their own, and both are in one user's list. -/
theorem twoSends_keysSeparate : KeysSeparate {"ada-mail-com", "omar-mail-com"}
    fun i : Creating (twoSends secondApart) => (twoSends secondApart i).request := by
  have hconv : ∀ i, child (twoSends secondApart i).request.conversationKey =
      some [(twoSends secondApart i).request.conversationKey] := by decide +kernel
  have hne : ∀ i j, i ≠ j → (twoSends secondApart i).request.conversationKey ≠
      (twoSends secondApart j).request.conversationKey := by decide +kernel
  have hada : child "ada-mail-com" = some ["ada-mail-com"] := by decide +kernel
  have homar : child "omar-mail-com" = some ["omar-mail-com"] := by decide +kernel
  have hapart : KeysApart "ada-mail-com" "omar-mail-com" :=
    (keysApart_iff hada homar).2 (by decide)
  constructor
  · rintro ⟨i, hi⟩ ⟨j, hj⟩ hij
    exact (keysApart_iff (hconv i) (hconv j)).2 (hne i j fun h => hij (Subtype.ext h))
  · rintro ⟨i, hi⟩ user (rfl | rfl)
    · exact (keysApart_iff (hconv i) hada).2 (by revert i; decide +kernel)
    · exact (keysApart_iff (hconv i) homar).2 (by revert i; decide +kernel)
  · rintro user (rfl | rfl) user' (rfl | rfl)
    · exact .inl rfl
    · exact .inr hapart
    · exact .inr hapart.symm
    · exact .inl rfl
  · rintro ⟨i, hi⟩
    exact .inl (by revert i; decide +kernel)

theorem sends_keep_messages_apart :
    let final := (sends registered (twoSends secondApart) fun _ => []).run
      [true, false, true, true, false, false]
    (∀ i, (final.jobs i).prog = .ret true →
        ∃ q, child (twoSends secondApart i).request.conversationKey = some q ∧
          (twoSends secondApart i).HeldAt (final.store.value q) ∧
          ∀ j q', j ≠ i → (twoSends secondApart j).creates = true →
            child (twoSends secondApart j).request.conversationKey = some q' →
            KeyTree.Apart q q') ∧
      ∀ user ∈ ({"ada-mail-com", "omar-mail-com"} : Set String), ∀ p, child user = some p →
        (conversationIds (final.store.value p)).Nodup := by
  have hsender : ∀ i, (twoSends secondApart i).creates = true →
      (twoSends secondApart i).manager.userEmail = (twoSends secondApart i).currentUser :=
    fun _ _ => rfl
  have hids : ∀ i j, (twoSends secondApart i).creates = true →
      (twoSends secondApart j).creates = true →
      (twoSends secondApart i).createRandomEMessageId =
        (twoSends secondApart j).createRandomEMessageId → i = j := by decide +kernel
  have hstart : ∀ user ∈ ({"ada-mail-com", "omar-mail-com"} : Set String), ∀ p,
      child user = some p → (conversationIds (registered.value p)).Nodup ∧
        ∀ i, (twoSends secondApart i).creates = true →
          (twoSends secondApart i).request.conversationKey ∉
            conversationIds (registered.value p) := by
    have hada : child "ada-mail-com" = some ["ada-mail-com"] := by decide +kernel
    have homar : child "omar-mail-com" = some ["omar-mail-com"] := by decide +kernel
    rintro user (rfl | rfl) p hp
    · rw [hada] at hp
      cases hp
      decide +kernel
    · rw [homar] at hp
      cases hp
      decide +kernel
  exact sends_keep_messages twoSends_keysSeparate hsender hids hstart _

/-- Two messages sent in the same second: both complete with `true`, the first message is gone, and
the list has its id twice. -/
theorem sent_message_overwritten :
    let date := fun i => if i then (1 / 4 : Date) else 1 / 2
    let final := (sends registered (twoSends date) fun _ => []).run
      [true, true, true, false, false, false]
    (∀ i, (final.jobs i).prog = .ret true) ∧
      (∃ q, child (twoSends date true).request.conversationKey = some q ∧
        ¬ (twoSends date true).HeldAt (final.store.value q)) ∧
      ¬ (conversationIds (final.store.value ["ada-mail-com"])).Nodup := by
  refine ⟨fun i => Prog.answer_eq_some.1 (by revert i; decide +kernel),
    ⟨[(twoSends (fun i => if i then (1 / 4 : Date) else 1 / 2) true).request.conversationKey],
      by decide +kernel, ?_⟩, by decide +kernel⟩
  rintro ⟨message, hm, -, -, hcontent, -⟩
  have hget := congrArg (fun ms => ((ms.bind List.head?).bind (find "content")).bind
    Value.asString) hm
  simp only [Option.bind_some, List.head?_cons, hcontent, Value.asString_str] at hget
  revert hget
  decide +kernel

end IChat
