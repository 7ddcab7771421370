import IChat.Controllers.Chat
import IChat.Manager.Account
import IChat.Manager.Proof.Interference

/-!
# Keys made from emails and dates

`safeEmail` replaces dots and `@` signs only, and the date of a message id is used as it is printed.
The path strings are legal keys exactly when the emails and the date have none of the other
characters with a meaning in paths (`pathsLegal_iff`). A message id is three texts in a row without
a separator: it determines the first two exactly when no text can move from one to the other
(`ids_determine_participants_iff`).
-/

namespace IChat

open Async Firebase

/-! ## Legal keys -/

/-- An email whose key is legal: `safeEmail` does not replace these characters. -/
def LegalEmail (email : String) : Prop :=
  email ≠ "" ∧ ∀ c ∈ email.toList, c ∉ ['/', '#', '$', '[', ']']

/-- Nothing in the text is forbidden in a key. -/
def LegalText (text : String) : Prop := ∀ c ∈ text.toList, c ∉ kInvalidKeyCharacters

theorem isValidKey_iff_legal {s : String} : isValidKey s = true ↔ s ≠ "" ∧ LegalText s := by
  simp only [isValidKey, LegalText, Bool.and_eq_true, bne_iff_ne, List.all_eq_true,
    Bool.not_eq_true', List.contains_eq_mem, decide_eq_false_iff_not]

theorem legalText_append {s t : String} : LegalText (s ++ t) ↔ LegalText s ∧ LegalText t := by
  simp only [LegalText, String.toList_append, List.forall_mem_append]

theorem safeEmail_eq_empty {email : String} : safeEmail email = "" ↔ email = "" := by
  rw [← String.toList_inj, ← String.toList_inj, toList_safeEmail]
  exact List.map_eq_nil_iff

/-- A character of a safe email is legal exactly when it is a dot, an `@` or legal. -/
theorem legal_replaced {c : Char} :
    (if c = '.' ∨ c = '@' then '-' else c) ∉ kInvalidKeyCharacters ↔
      c ∉ ['/', '#', '$', '[', ']'] := by
  by_cases hc : c = '.' ∨ c = '@'
  · rw [if_pos hc]
    rcases hc with rfl | rfl <;> decide
  · rw [if_neg hc]
    obtain ⟨hdot, -⟩ := not_or.1 hc
    simp only [kInvalidKeyCharacters, List.mem_cons, List.not_mem_nil, or_false, not_or]
    constructor
    · intro h
      obtain ⟨hopen, hclose, -, hhash, hdollar, hslash⟩ := h
      exact ⟨hslash, hhash, hdollar, hopen, hclose⟩
    · intro h
      obtain ⟨hslash, hhash, hdollar, hopen, hclose⟩ := h
      exact ⟨hopen, hclose, hdot, hhash, hdollar, hslash⟩

theorem legalText_safeEmail {email : String} :
    LegalText (safeEmail email) ↔ ∀ c ∈ email.toList, c ∉ ['/', '#', '$', '[', ']'] := by
  unfold LegalText
  rw [toList_safeEmail]
  simp only [List.forall_mem_map, legal_replaced]

theorem isValidKey_safeEmail {email : String} :
    isValidKey (safeEmail email) = true ↔ LegalEmail email := by
  rw [isValidKey_iff_legal, legalText_safeEmail, LegalEmail, ne_eq, safeEmail_eq_empty]

theorem isValidKey_conversation {recipient : String} {send : Send}
    (hchat : send.chat.otherUserEmail = safeEmail recipient) :
    isValidKey send.request.conversationKey = true ↔
      LegalText (safeEmail recipient) ∧ LegalText (safeEmail send.currentUser) ∧
        LegalText (send.dateFormatter.string send.idDate) := by
  have hkey : send.request.conversationKey = "conversation_" ++
      (safeEmail recipient ++ safeEmail send.currentUser ++
        send.dateFormatter.string send.idDate) := by
    rw [← hchat]; rfl
  have hprefix : LegalText "conversation_" := (isValidKey_iff_legal.1 (by decide +kernel)).2
  have hne : send.request.conversationKey ≠ "" := fun he => by
    rw [hkey, ← String.toList_inj, String.toList_append] at he
    exact absurd (List.append_eq_nil_iff.1 he).1 (by decide)
  rw [isValidKey_iff_legal, hkey, legalText_append, legalText_append, legalText_append]
  rw [hkey] at hne
  constructor
  · intro h
    obtain ⟨-, -, ⟨h1, h2⟩, h3⟩ := h
    exact ⟨h1, h2, h3⟩
  · intro h
    obtain ⟨h1, h2, h3⟩ := h
    exact ⟨hne, hprefix, ⟨h1, h2⟩, h3⟩

/-! ## Calls at single keys -/

/-- The call raises nowhere, and all its reads and writes are at nodes below the root. -/
inductive TopLevel {ρ : Type} : Call ρ → Prop
  | ret (r : ρ) : TopLevel (.ret r)
  | stop : TopLevel .stop
  | read {key : String} {k : Value → Call ρ} (hk : ∀ v, TopLevel (k v)) : TopLevel (.read [key] k)
  | write {key : String} {v : Value} {k : Bool → Call ρ} (hk : ∀ ok, TopLevel (k ok)) :
    TopLevel (.write [key] v k)

theorem topLevel_atChild {ρ : Type} {s : String} {k : Path → Call ρ} (hs : isValidKey s = true)
    (h : TopLevel (k [s])) : TopLevel (atChild s k) := by
  rw [atChild, child_key hs]
  exact h

theorem topLevel_setValue {key : String} {v : Value} {k : Call Bool} (hk : TopLevel k) :
    TopLevel (setValue [key] v k) := by
  refine .write fun ok => ?_
  cases ok
  · exact .ret false
  · exact hk

theorem topLevel_userExists {email : String} (h : isValidKey (safeEmail email) = true) :
    TopLevel (DatabaseManager.userExists email) := by
  refine topLevel_atChild h (.read fun v => ?_)
  cases v.asString <;> exact .ret _

theorem topLevel_insertUser {user : ChatAppUser} (h : isValidKey user.safeEmail = true) :
    TopLevel (DatabaseManager.insertUser user) := by
  rw [DatabaseManager.insertUser_eq]
  exact topLevel_atChild h <| topLevel_setValue <| .read fun v => topLevel_setValue (.ret true)

theorem ConversationRequest.topLevel_call {req : ConversationRequest}
    (huser : isValidKey req.userKey = true) (hconv : isValidKey req.conversationKey = true) :
    TopLevel req.call := by
  unfold call
  rw [DatabaseManager.createNewConversation_eq]
  refine topLevel_atChild huser (.read fun v => ?_)
  split
  · exact .ret false
  · exact topLevel_setValue <| topLevel_atChild hconv <| topLevel_setValue (.ret true)

/-! ## The paths of the application -/

/-- The strings that the operations pass to `child` are legal keys, and the operations stay at
single keys without raising. -/
structure PathsLegal (user : ChatAppUser) (send : Send) : Prop where
  userExists : isValidKey (safeEmail user.email) = true
  insertUser : isValidKey user.safeEmail = true
  createNewConversation : isValidKey send.request.userKey = true
  finishCreateConversation : isValidKey send.request.conversationKey = true
  topLevel : TopLevel (DatabaseManager.userExists user.email) ∧
    TopLevel (DatabaseManager.insertUser user) ∧ TopLevel send.request.call

/-- **The paths are legal keys exactly when no email has one of `/ # $ [ ]` and the printed date
none of `. / # $ [ ]`.** -/
theorem pathsLegal_iff {user : ChatAppUser} {recipient : String} {send : Send}
    (huser : user.email ≠ "") (hmanager : send.manager.userEmail ≠ "")
    (hchat : send.chat.otherUserEmail = safeEmail recipient) :
    PathsLegal user send ↔
      (∀ email ∈ [user.email, recipient, send.currentUser, send.manager.userEmail],
        ∀ c ∈ email.toList, c ∉ ['/', '#', '$', '[', ']']) ∧
      ∀ c ∈ (send.dateFormatter.string send.idDate).toList, c ∉ kInvalidKeyCharacters := by
  have hconv := isValidKey_conversation hchat
  simp only [List.forall_mem_cons, List.not_mem_nil, IsEmpty.forall_iff, implies_true, and_true]
  constructor
  · intro h
    obtain ⟨hr, hs, hd⟩ := hconv.1 h.finishCreateConversation
    exact ⟨⟨(isValidKey_safeEmail.1 h.userExists).2, legalText_safeEmail.1 hr,
      legalText_safeEmail.1 hs, (isValidKey_safeEmail.1 h.createNewConversation).2⟩, hd⟩
  · intro h
    obtain ⟨⟨hu, hr, hs, hm⟩, hd⟩ := h
    have hu' := isValidKey_safeEmail.2 ⟨huser, hu⟩
    have hm' : isValidKey send.request.userKey = true := isValidKey_safeEmail.2 ⟨hmanager, hm⟩
    have hc := hconv.2 ⟨legalText_safeEmail.2 hr, legalText_safeEmail.2 hs, hd⟩
    exact ⟨hu', hu', hm', hc, topLevel_userExists hu', topLevel_insertUser hu',
      ConversationRequest.topLevel_call hm' hc⟩

/-- Ada sends to Zain on a device that prints dates with the given text. -/
def adaSends (dateString : String) : Send where
  chat := ⟨safeEmail "zain@mail.com", some "Zain Ali", true⟩
  dateFormatter := ⟨fun _ => dateString⟩
  idDate := 1
  sentDate := 1
  text := "hello"
  currentUser := "ada@mail.com"
  manager := ⟨"ada@mail.com"⟩

theorem pathsLegal_adaSends :
    PathsLegal (twoUsers true) (adaSends "Jun 29, 2020 at 5:10:11 PM GMT+2") ↔
      (∀ email ∈ [(twoUsers true).email, "zain@mail.com", "ada@mail.com", "ada@mail.com"],
        ∀ c ∈ email.toList, c ∉ ['/', '#', '$', '[', ']']) ∧
      ∀ c ∈ "Jun 29, 2020 at 5:10:11 PM GMT+2".toList, c ∉ kInvalidKeyCharacters :=
  pathsLegal_iff (by decide) (by decide) rfl

/-- With a German date the call raises after the entry was written, and an email with a slash names
a node inside the directory. -/
theorem paths_illegal :
    ¬ PathsLegal (twoUsers true) (adaSends "29.06.2020 um 17:10:11 MESZ") ∧
      (exec (adaSends "29.06.2020 um 17:10:11 MESZ").request.call bothRegistered []).2 = .raise ∧
      (conversationList (exec (adaSends "29.06.2020 um 17:10:11 MESZ").request.call
        bothRegistered []).1 ["ada-mail-com"]).length = 1 ∧
      child (safeEmail "users/0") = some ["users", "0"] := by
  refine ⟨fun h => ?_, by rfl, by decide +kernel, by decide +kernel⟩
  exact absurd h.finishCreateConversation (by decide +kernel)

/-! ## Ids -/

/-- A text moves from the start of `u` to the end of `r`. -/
def TextMoves (r u r' u' : String) : Prop := ∃ w, w ≠ "" ∧ r' = r ++ w ∧ u = w ++ u'

theorem append_eq_append_iff {r u r' u' : String} :
    r ++ u = r' ++ u' ↔
      (r = r' ∧ u = u') ∨ TextMoves r u r' u' ∨ TextMoves r' u' r u := by
  constructor
  · intro h
    have hlist : r.toList ++ u.toList = r'.toList ++ u'.toList := by
      rw [← String.toList_append, ← String.toList_append, h]
    rcases List.append_eq_append_iff.1 hlist with ⟨w, hr, hu⟩ | ⟨w, hr, hu⟩
    · by_cases hw : w = []
      · subst hw
        exact .inl ⟨String.toList_inj.1 (by simpa using hr.symm),
          String.toList_inj.1 (by simpa using hu)⟩
      · exact .inr (.inl ⟨String.ofList w, by simpa using hw,
          String.toList_inj.1 (by simpa using hr), String.toList_inj.1 (by simpa using hu)⟩)
    · by_cases hw : w = []
      · subst hw
        exact .inl ⟨String.toList_inj.1 (by simpa using hr),
          String.toList_inj.1 (by simpa using hu.symm)⟩
      · exact .inr (.inr ⟨String.ofList w, by simpa using hw,
          String.toList_inj.1 (by simpa using hr), String.toList_inj.1 (by simpa using hu)⟩)
  · intro h
    rcases h with ⟨rfl, rfl⟩ | ⟨w, -, rfl, rfl⟩ | ⟨w, -, rfl, rfl⟩
    · rfl
    · rw [String.append_assoc]
    · rw [String.append_assoc]

theorem TextMoves.ne {r u r' u' : String} (h : TextMoves r u r' u') : r ≠ r' := by
  obtain ⟨w, hw, rfl, -⟩ := h
  intro he
  have hlist := congrArg String.toList he
  rw [String.toList_append] at hlist
  exact hw (String.toList_inj.1 (by simpa using hlist))

section
variable {a c : String} {s t : Send}

/-- Ids printed at the same second differ in the keys of recipient and sender only. -/
theorem createRandomEMessageId_eq_iff (hs : s.chat.otherUserEmail = safeEmail a)
    (ht : t.chat.otherUserEmail = safeEmail c)
    (hdate : s.dateFormatter.string s.idDate = t.dateFormatter.string t.idDate) :
    s.createRandomEMessageId = t.createRandomEMessageId ↔
      safeEmail a ++ safeEmail s.currentUser = safeEmail c ++ safeEmail t.currentUser := by
  unfold Send.createRandomEMessageId
  rw [hs, ht, hdate]
  exact String.append_left_inj _

/-- **Equal ids at the same second have the same recipient and sender exactly when no text can move
from one key to the other.** -/
theorem ids_determine_participants_iff (hs : s.chat.otherUserEmail = safeEmail a)
    (ht : t.chat.otherUserEmail = safeEmail c)
    (hdate : s.dateFormatter.string s.idDate = t.dateFormatter.string t.idDate) :
    (s.createRandomEMessageId = t.createRandomEMessageId →
        safeEmail a = safeEmail c ∧ safeEmail s.currentUser = safeEmail t.currentUser) ↔
      ¬ (TextMoves (safeEmail a) (safeEmail s.currentUser) (safeEmail c) (safeEmail t.currentUser) ∨
        TextMoves (safeEmail c) (safeEmail t.currentUser) (safeEmail a)
          (safeEmail s.currentUser)) := by
  rw [createRandomEMessageId_eq_iff hs ht hdate, append_eq_append_iff]
  constructor
  · rintro h (hm | hm)
    · exact hm.ne (h (.inr (.inl hm))).1
    · exact hm.ne (h (.inr (.inr hm))).1.symm
  · rintro hno (h | h)
    · exact h
    · exact absurd h hno

end

/-- A send at a fixed second. -/
def sendFrom (sender recipient : String) : Send :=
  { adaSends "Jun 29, 2020 at 5:10:11 PM GMT+2" with
    currentUser := sender, chat := ⟨safeEmail recipient, none, true⟩ }

theorem ids_determine_participants_adaOmar :
    ((sendFrom "ada@mail.com" "zain@mail.com").createRandomEMessageId =
        (sendFrom "omar@mail.com" "zain@mail.com").createRandomEMessageId →
        safeEmail "zain@mail.com" = safeEmail "zain@mail.com" ∧
          safeEmail "ada@mail.com" = safeEmail "omar@mail.com") ↔
      ¬ (TextMoves (safeEmail "zain@mail.com") (safeEmail "ada@mail.com")
          (safeEmail "zain@mail.com") (safeEmail "omar@mail.com") ∨
        TextMoves (safeEmail "zain@mail.com") (safeEmail "omar@mail.com")
          (safeEmail "zain@mail.com") (safeEmail "ada@mail.com")) :=
  ids_determine_participants_iff (s := sendFrom "ada@mail.com" "zain@mail.com")
    (t := sendFrom "omar@mail.com" "zain@mail.com") rfl rfl rfl

/-- Two pairs of users whose sends at the same second have one id. -/
theorem ids_coincide :
    (sendFrom "mx@x.co" "m@x.co").createRandomEMessageId =
        (sendFrom "x@x.co" "m@x.com").createRandomEMessageId ∧
      safeEmail "m@x.co" ≠ safeEmail "m@x.com" ∧ safeEmail "mx@x.co" ≠ safeEmail "x@x.co" := by
  decide +kernel

end IChat
