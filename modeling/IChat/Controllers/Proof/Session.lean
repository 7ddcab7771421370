import IChat.Controllers.App
import IChat.Manager.Proof.FailedConversations

/-!
# Sessions

What a process does as the signed-in account after other accounts were signed in. The sender and the
user's node of a sent message are those of `DatabaseManager.shared`, captured at its first use: they
are the signed-in account's if that one was signed in then (`sends_as_signedIn`). The conversations
held are from the list that the listener was attached to: they are the signed-in account's if no
other account signs in after that (`session_rows_own`).
-/

namespace IChat

open Async Firebase SortedMap

/-! ## What an event does -/

namespace App

variable {app app' : App}

/-- A call is recorded, with a manager that is there or captures the session. -/
theorem call_eq_some {request : DatabaseManager → Request} (h : app.call request = some app') :
    ∃ manager, app' = { app with
        manager := some manager
        requests := app.requests ++ [(app.currentUser, request manager)] } ∧
      (app.manager = some manager ∨
        app.manager = none ∧ app.currentUser = some manager.userEmail) := by
  unfold call shared at h
  cases hm : app.manager with
  | some manager =>
    rw [hm] at h
    cases h
    exact ⟨manager, by rw [← hm], .inl rfl⟩
  | none =>
    rw [hm] at h
    obtain ⟨⟨manager, app₁⟩, hshared, hrest⟩ := Option.bind_eq_some_iff.1 h
    obtain ⟨userEmail, huser, hpair⟩ := Option.bind_eq_some_iff.1 hshared
    cases hpair
    cases hrest
    exact ⟨⟨userEmail⟩, rfl, .inr ⟨rfl, huser⟩⟩

/-- The listener is attached once, for the account signed in then. -/
theorem startListinigForConversation_eq_some (h : app.startListinigForConversation = some app') :
    ((∃ l, app.listener = some l) ∧ app' = app) ∨
      ∃ email manager path, app.listener = none ∧ app.currentUser = some email ∧
        child (safeEmail email ++ "/conversations") = some path ∧
        app' = { app with
          manager := some manager
          requests := app.requests ++ [(some email, .getAllConversation (safeEmail email))]
          listener := some ⟨safeEmail email, path, [app.store.value path]⟩ } := by
  unfold startListinigForConversation at h
  split at h
  · rename_i l hl
    cases h
    exact .inl ⟨⟨l, hl⟩, rfl⟩
  · rename_i hl
    obtain ⟨email, huser, h⟩ := Option.bind_eq_some_iff.1 h
    obtain ⟨app₁, hcall, h⟩ := Option.bind_eq_some_iff.1 h
    obtain ⟨path, hpath, h⟩ := Option.bind_eq_some_iff.1 h
    obtain ⟨manager, rfl, -⟩ := call_eq_some hcall
    cases h
    exact .inr ⟨email, manager, path, hl, huser, hpath, by simp only [huser]⟩

/-- A press of Send does nothing, or asks for a conversation by the account signed in. -/
theorem inputBar_eq_some {press : Press} (h : app.inputBar press = some app') :
    app' = app ∨ ∃ email manager, app.currentUser = some email ∧
      (app.manager = some manager ∨ app.manager = none ∧ email = manager.userEmail) ∧
      app' = { app with
        manager := some manager
        requests := app.requests ++
          [(some email, .createNewConversation (Send.request ⟨press, email, manager⟩))] } := by
  unfold inputBar at h
  split at h
  · cases h; exact .inl rfl
  · obtain ⟨email, huser, h⟩ := Option.bind_eq_some_iff.1 h
    split at h
    · obtain ⟨manager, rfl, hm⟩ := call_eq_some h
      refine .inr ⟨email, manager, huser, hm.imp id fun ⟨hm, he⟩ => ⟨hm, ?_⟩, by rw [huser]⟩
      rw [huser] at he
      exact Option.some.inj he
    · cases h; exact .inl rfl

/-- What an event can do. -/
inductive Effect (app : App) (e : Event) : App → Prop
  | session (user : Option String)
    (h : user = app.currentUser ∨ user = none ∨ user = e.signsIn) :
    Effect app e { app with currentUser := user }
  | asks (user : Option String) (manager : DatabaseManager) (request : Request)
    (h : user = app.currentUser ∨ user = e.signsIn)
    (hne : ∀ req, request ≠ .createNewConversation req) :
    Effect app e { app with
      currentUser := user
      manager := some manager
      requests := app.requests ++ [(user, request)] }
  | creates (press : Press) (email : String) (manager : DatabaseManager) (he : e = .send press)
    (huser : app.currentUser = some email)
    (hmanager : app.manager = some manager ∨ app.manager = none ∧ email = manager.userEmail) :
    Effect app e { app with
      manager := some manager
      requests := app.requests ++
        [(some email, .createNewConversation (Send.request ⟨press, email, manager⟩))] }
  | listens (email : String) (manager : DatabaseManager) (path : Path)
    (huser : app.currentUser = some email) (hlistener : app.listener = none)
    (hpath : child (safeEmail email ++ "/conversations") = some path) :
    Effect app e { app with
      manager := some manager
      requests := app.requests ++ [(some email, .getAllConversation (safeEmail email))]
      listener := some ⟨safeEmail email, path, [app.store.value path]⟩ }
  | changed (db : Database) (he : e = .changed db) :
    Effect app e (app.changed db)
  | received (i : Nat) (l : Listener) (v : Value) (he : e = .valueEvent i)
    (hl : app.listener = some l) (hv : l.snapshots[i]? = some v) :
    Effect app e { app with conversations := received app.conversations (conversationsOf v) }

/-- An event that calls the manager, and not to create a conversation. -/
theorem effect_of_call {e : Event} (request : DatabaseManager → Request) {user : Option String}
    (huser : user = app.currentUser ∨ user = e.signsIn)
    (hne : ∀ manager req, request manager ≠ .createNewConversation req)
    (h : { app with currentUser := user }.call request = some app') : Effect app e app' := by
  obtain ⟨manager, rfl, -⟩ := call_eq_some h
  exact .asks user manager (request manager) huser (hne manager)

theorem step_effect {e : Event} (h : app.step e = some app') : Effect app e app' := by
  cases e with
  | login authResult =>
    cases authResult with
    | none => cases h; exact .session app.currentUser (.inl rfl)
    | some email => cases h; exact .session (some email) (.inr (.inr rfl))
  | signOut => cases h; exact .session none (.inr (.inl rfl))
  | register email =>
    exact effect_of_call (fun _ => .userExists email) (.inl rfl) (fun _ _ => nofun) h
  | userCreated email chatUser =>
    exact effect_of_call (fun _ => .insertUser chatUser) (.inr rfl) (fun _ _ => nofun) h
  | search => exact effect_of_call (fun _ => .getallUser) (.inl rfl) (fun _ _ => nofun) h
  | conversationsLoaded =>
    rcases startListinigForConversation_eq_some h with
      ⟨-, rfl⟩ | ⟨email, manager, path, hl, huser, hpath, rfl⟩
    · exact .session app'.currentUser (.inl rfl)
    · exact .listens email manager path huser hl hpath
  | profileAppeared | chatOpened =>
    obtain ⟨-, -, h⟩ := Option.bind_eq_some_iff.1 h
    cases h
    exact .session app.currentUser (.inl rfl)
  | send press =>
    rcases inputBar_eq_some h with rfl | ⟨email, manager, huser, hmanager, rfl⟩
    · exact .session app'.currentUser (.inl rfl)
    · exact .creates press email manager rfl huser hmanager
  | changed db => cases h; exact .changed db rfl
  | valueEvent i =>
    cases h
    unfold valueEvent
    split
    · rename_i v hv
      obtain ⟨l, hl, hv⟩ := Option.bind_eq_some_iff.1 hv
      exact .received i l v rfl hl hv
    · exact .session app.currentUser (.inl rfl)

end App

/-! ## Whose messages are sent -/

/-- A conversation's node whose message is from `email`. -/
def SentBy (email : String) (v : Value) : Prop :=
  ∃ message, v = .dict (conversationNode message) ∧
    find "sendr_email" message = some (.str email)

/-- The call is made as the account: it reads only the account's node, and writes only there and,
with the account as the sender, at the conversation's node. -/
def ConversationRequest.MadeAs (req : ConversationRequest) (email : String) : Prop :=
  Issues (fun p => child (safeEmail email) = some p)
    (fun p v => child (safeEmail email) = some p ∨
      child req.conversationKey = some p ∧ SentBy email v) req.call

/-- A call is made as the account of its manager. -/
theorem ConversationRequest.madeAs_manager (req : ConversationRequest) :
    req.MadeAs req.manager.userEmail := by
  unfold MadeAs call
  rw [DatabaseManager.createNewConversation_eq]
  unfold atChild
  cases hp : child (safeEmail req.manager.userEmail) with
  | none => exact .raise
  | some p =>
    refine .read rfl fun v => ?_
    split
    · exact .ret
    · refine .write (.inl rfl) fun ok => ?_
      cases ok
      · exact .ret
      · simp only [↓reduceIte, DatabaseManager.finishCreateConversation, atChild]
        split
        · rename_i q hq
          exact .write (.inr ⟨hq, _, rfl, rfl⟩) fun ok => by cases ok <;> exact .ret
        · exact .raise

/-- Send is pressed by the account that `DatabaseManager.shared` was created for, if it was. -/
def SendsAsCaptured (app : App) (e : Event) : Prop :=
  ∀ press manager email, e = .send press → app.manager = some manager →
    app.currentUser = some email → email = manager.userEmail

/-- **Messages are written as the account signed in, when `DatabaseManager.shared` is its own.** In
every run where each press of Send meets this, a conversation is created only while an account is
signed in, and as this account. -/
theorem sends_as_signedIn {user : Option String} {store : Database} {es : List Event} {app : App}
    (hrun : (App.launch user store).run es = some app)
    (hmeets : Machine.Meets App.step SendsAsCaptured (App.launch user store) es)
    {account : Option String} {req : ConversationRequest}
    (hreq : (account, .createNewConversation req) ∈ app.requests) :
    ∃ email, account = some email ∧ req.MadeAs email := by
  refine Machine.run_inv (I := fun _ app => ∀ account req,
    (account, Request.createNewConversation req) ∈ app.requests →
      ∃ email, account = some email ∧ req.MadeAs email) hrun hmeets nofun
    (fun _ e app₁ app₂ _ hinv hcond hstep account req hreq => ?_) account req hreq
  have hnew : ∀ {r : Option String × Request},
      (account, .createNewConversation req) ∈ app₁.requests ++ [r] →
      (account, .createNewConversation req) ∈ app₁.requests ∨
        (account, .createNewConversation req) = r :=
    fun h => (List.mem_append.1 h).imp id List.mem_singleton.1
  cases App.step_effect hstep with
  | session | changed | received => exact hinv account req hreq
  | asks user manager request h hne =>
    rcases hnew hreq with hreq | hreq
    · exact hinv account req hreq
    · cases hreq
      exact absurd rfl (hne req)
  | listens email manager path =>
    rcases hnew hreq with hreq | hreq
    · exact hinv account req hreq
    · cases hreq
  | creates press email manager he huser hmanager =>
    rcases hnew hreq with hreq | hreq
    · exact hinv account req hreq
    · cases hreq
      refine ⟨email, rfl, ?_⟩
      have hemail : email = manager.userEmail := by
        rcases hmanager with hm | ⟨-, h⟩
        · exact hcond press manager email he hm huser
        · exact h
      rw [hemail]
      exact ConversationRequest.madeAs_manager _

/-- A press of Send in a chat with Zain. -/
def toZain : Press where
  chat := ⟨"zain-mail-com", some "Zain Ali", true⟩
  dateFormatter := ⟨toString⟩
  idDate := 1
  sentDate := 2
  text := "hello"

/-- A session of another account in between, without sending. -/
def adaTwice : List Event :=
  [.conversationsLoaded, .signOut, .login (some "omar@mail.com"), .signOut,
    .login (some "ada@mail.com"), .send toZain]

/-- The message that Ada sends. -/
def adaToZain : ConversationRequest := Send.request ⟨toZain, "ada@mail.com", ⟨"ada@mail.com"⟩⟩

theorem sends_as_signedIn_twice :
    ∃ email, some "ada@mail.com" = some email ∧ adaToZain.MadeAs email := by
  have hrun : (App.launch (some "ada@mail.com") bothRegistered).run adaTwice = some _ := rfl
  refine sends_as_signedIn hrun ?_ (.tail _ (.head _))
  refine Machine.meets_cons nofun rfl <| Machine.meets_cons nofun rfl <|
    Machine.meets_cons nofun rfl <| Machine.meets_cons nofun rfl <|
    Machine.meets_cons nofun rfl <| Machine.meets_cons (fun _ _ _ _ hmanager huser => ?_) rfl trivial
  cases hmanager
  cases huser
  rfl

/-- The account that signs in after another one was signed in sends as the other one. -/
theorem sent_as_other_account :
    ∃ app, (App.launch (some "ada@mail.com") bothRegistered).run
        [.conversationsLoaded, .signOut, .login (some "omar@mail.com"), .send toZain] = some app ∧
      ∃ req, (some "omar@mail.com", .createNewConversation req) ∈ app.requests ∧
        ¬ req.MadeAs "omar@mail.com" := by
  refine ⟨_, rfl, Send.request ⟨toZain, "omar@mail.com", ⟨"ada@mail.com"⟩⟩, .tail _ (.head _),
    fun h => ?_⟩
  unfold ConversationRequest.MadeAs ConversationRequest.call at h
  have hada : child (safeEmail "ada@mail.com") = some ["ada-mail-com"] := by decide +kernel
  have homar : child (safeEmail "omar@mail.com") = some ["omar-mail-com"] := by decide +kernel
  simp only [DatabaseManager.createNewConversation_eq, Send.request, atChild, hada, homar,
    observeSingleEvent] at h
  cases h with
  | read hread _ => exact absurd hread (by decide)

/-! ## Whose conversations are shown -/

/-- The value of the account's `conversations` list. -/
def ownValue (db : Database) (email : String) : Option Value :=
  (child (safeEmail email ++ "/conversations")).map db.value

/-- The conversations in the account's own list. -/
def ownConversations (db : Database) (email : String) : List Conversation :=
  (ownValue db email).elim [] listed

/-- An account that signs in is the one that the listener was attached for, if it was. -/
def SignsInListened (app : App) (e : Event) : Prop :=
  ∀ email l, e.signsIn = some email → app.listener = some l → l.email = safeEmail email

namespace App

/-- `v` was at `p` in the run. -/
def Seen (app : App) (es : List Event) (p : Path) (v : Value) : Prop :=
  ∃ es' app', es' <+: es ∧ app.run es' = some app' ∧ app'.store.value p = v

theorem Seen.append {app : App} {es : List Event} {p : Path} {v : Value} (h : app.Seen es p v)
    (e : Event) : app.Seen (es ++ [e]) p v := by
  obtain ⟨es', app', hpre, hrun, hv⟩ := h
  exact ⟨es', app', hpre.trans (List.prefix_append _ _), hrun, hv⟩

theorem seen_self {app app' : App} {es : List Event} (h : app.run es = some app') (p : Path) :
    app.Seen es p (app'.store.value p) := ⟨es, app', List.prefix_rfl, h, rfl⟩

/-- The listener's path is a list of conversations, its snapshots were there, and what is held was
listed there. -/
structure Listening (start : App) (es : List Event) (app : App) : Prop where
  path : ∀ l, app.listener = some l → child (l.email ++ "/conversations") = some l.path
  snapshots : ∀ l, app.listener = some l → ∀ v ∈ l.snapshots, start.Seen es l.path v
  held : ∀ c ∈ app.conversations, ∃ l v, app.listener = some l ∧ start.Seen es l.path v ∧
    c ∈ listed v

/-- The account signed in is the one that the listener was attached for. -/
def ListensToUser (app : App) : Prop :=
  ∀ l email, app.listener = some l → app.currentUser = some email → l.email = safeEmail email

theorem listening_launch (user : Option String) (store : Database) :
    Listening (launch user store) [] (launch user store) := ⟨nofun, nofun, nofun⟩

/-- **Every event keeps the origin of what is held.** -/
theorem Listening.step {start app app' : App} {es : List Event} {e : Event}
    (h : Listening start es app) (hrun : start.run (es ++ [e]) = some app')
    (hstep : app.step e = some app') : Listening start (es ++ [e]) app' := by
  have hkeep : ∀ l, app.listener = some l → ∀ v ∈ l.snapshots, start.Seen (es ++ [e]) l.path v :=
    fun l hl v hv => (h.snapshots l hl v hv).append e
  have hheld : ∀ c ∈ app.conversations, ∃ l v, app.listener = some l ∧
      start.Seen (es ++ [e]) l.path v ∧ c ∈ listed v := fun c hc => by
    obtain ⟨l, v, hl, hv, hcv⟩ := h.held c hc
    exact ⟨l, v, hl, hv.append e, hcv⟩
  cases step_effect hstep with
  | session | asks | creates => exact ⟨h.path, hkeep, hheld⟩
  | listens email manager path huser hlistener hpath =>
    refine ⟨fun l hl => ?_, fun l hl v hv => ?_, fun c hc => ?_⟩
    · obtain rfl := Option.some.inj hl
      exact hpath
    · obtain rfl := Option.some.inj hl
      rw [List.mem_singleton.1 hv]
      exact seen_self hrun path
    · obtain ⟨l, v, hl, -⟩ := hheld c hc
      rw [hlistener] at hl
      cases hl
  | changed db he =>
    refine ⟨fun l hl => ?_, fun l hl v hv => ?_, fun c hc => ?_⟩
    · obtain ⟨l', hl', rfl⟩ := Option.map_eq_some_iff.1 hl
      exact h.path l' hl'
    · obtain ⟨l', hl', rfl⟩ := Option.map_eq_some_iff.1 hl
      rcases List.mem_append.1 hv with hv | hv
      · exact hkeep l' hl' v hv
      · rw [List.mem_singleton.1 hv]
        exact seen_self hrun l'.path
    · obtain ⟨l, v, hl, hv, hcv⟩ := hheld c hc
      exact ⟨l.record db, v, by rw [changed, hl]; rfl, hv, hcv⟩
  | received i l v he hl hv =>
    refine ⟨h.path, hkeep, fun c hc => ?_⟩
    unfold received at hc
    split at hc
    · rename_i conversations hok
      split at hc
      · exact hheld c hc
      · exact ⟨l, v, hl, hkeep l hl v (List.mem_of_getElem? hv), by rw [listed, hok]; exact hc⟩
    · exact hheld c hc

theorem ListensToUser.step {app app' : App} {e : Event} (h : ListensToUser app)
    (hcond : SignsInListened app e) (hstep : app.step e = some app') : ListensToUser app' := by
  have huser : ∀ user, user = app.currentUser ∨ user = none ∨ user = e.signsIn →
      ∀ l email, app.listener = some l → user = some email → l.email = safeEmail email := by
    rintro user (rfl | rfl | rfl) l email hl he
    · exact h l email hl he
    · cases he
    · exact hcond email l he hl
  cases step_effect hstep with
  | session user hu => exact huser user hu
  | asks user manager request hu => exact huser user (hu.imp id .inr)
  | creates | received => exact h
  | listens email manager path hu =>
    intro l email' hl he
    obtain rfl := Option.some.inj hl
    obtain rfl := Option.some.inj (hu.symm.trans he)
    rfl
  | changed db he =>
    intro l email hl hu
    obtain ⟨l', hl', rfl⟩ := Option.map_eq_some_iff.1 hl
    exact h l' email hl' hu

/-! ## Stores that agree on the account's list -/

/-- The process with another store, listener and conversations. -/
def withList (app : App) (store : Database) (listener : Option Listener)
    (conversations : List Conversation) : App :=
  { app with store := store, listener := listener, conversations := conversations }

section
variable {app : App} {store : Database} {listener : Option Listener}
  {conversations : List Conversation}

theorem withList_currentUser :
    (app.withList store listener conversations).currentUser = app.currentUser := rfl

theorem call_withList (request : DatabaseManager → Request) :
    (app.withList store listener conversations).call request =
      (app.call request).map (·.withList store listener conversations) := by
  obtain ⟨user, manager, requests, l, held, db⟩ := app
  cases manager <;> cases user <;> rfl

theorem inputBar_withList (press : Press) :
    (app.withList store listener conversations).inputBar press =
      (app.inputBar press).map (·.withList store listener conversations) := by
  unfold inputBar
  split
  · rfl
  · rw [withList_currentUser]
    cases app.currentUser with
    | none => rfl
    | some email =>
      simp only [Option.bind_eq_bind, Option.bind_some]
      split
      · exact call_withList _
      · rfl

end

/-- The lists of two processes are alike for an account: the same, unless the listener is on the
list of another account. -/
inductive ListAlike (email : String) :
    Option Listener → List Conversation → Option Listener → List Conversation → Prop
  | unloaded (held : List Conversation) : ListAlike email none held none held
  | own (l : Listener) (held : List Conversation)
    (hpath : child (safeEmail email ++ "/conversations") = some l.path) :
    ListAlike email (some l) held (some l) held
  | other (l m : Listener) (held held' : List Conversation) (hne : l.email ≠ safeEmail email) :
    ListAlike email (some l) held (some m) held'

/-- Two processes are alike for an account if they differ at most in what is stored outside its list
and in what came from there. -/
inductive Alike (email : String) (app : App) : App → Prop
  | mk (store : Database) (listener : Option Listener) (conversations : List Conversation)
    (hstore : ownValue app.store email = ownValue store email)
    (hlist : ListAlike email app.listener app.conversations listener conversations) :
    Alike email app (app.withList store listener conversations)

/-- Two events are the same, or change the store outside the account's list. -/
inductive EventAlike (email : String) : Event → Event → Prop
  | same (e : Event) : EventAlike email e e
  | changed (db db' : Database) (h : ownValue db email = ownValue db' email) :
    EventAlike email (.changed db) (.changed db')

theorem alike_launch {email : String} (user : Option String) {store store' : Database}
    (h : ownValue store email = ownValue store' email) :
    Alike email (launch user store) (launch user store') := .mk store' none [] h (.unloaded [])

theorem value_eq_of_own {email : String} {db db' : Database} {p : Path}
    (h : ownValue db email = ownValue db' email)
    (hp : child (safeEmail email ++ "/conversations") = some p) : db.value p = db'.value p := by
  unfold ownValue at h
  rw [hp] at h
  exact Option.some.inj h

theorem Alike.changed {email : String} {app app' : App} {db db' : Database}
    (h : Alike email app app') (hdb : ownValue db email = ownValue db' email) :
    Alike email (app.changed db) (app'.changed db') := by
  cases h with
  | mk store listener conversations hstore hlist =>
    refine .mk _ _ _ hdb ?_
    simp only [App.changed, withList]
    generalize app.listener = l at hlist
    generalize app.conversations = held at hlist
    cases hlist with
    | unloaded => exact .unloaded _
    | own l held hpath =>
      have hrec : l.record db = l.record db' := by
        unfold Listener.record
        rw [value_eq_of_own hdb hpath]
      simp only [Option.map_some, hrec]
      exact .own _ _ hpath
    | other l m held held' hne => exact .other _ _ _ _ hne

/-- A listener attached to both. -/
theorem Alike.listens {email user : String} {app app' : App} {path : Path}
    (h : Alike email app app') (hl : app.listener = none)
    (hpath : child (safeEmail user ++ "/conversations") = some path) :
    Alike email
      { app with listener := some ⟨safeEmail user, path, [app.store.value path]⟩ }
      { app' with listener := some ⟨safeEmail user, path, [app'.store.value path]⟩ } := by
  cases h with
  | mk store listener conversations hstore hlist =>
    refine .mk store _ conversations hstore ?_
    rw [hl] at hlist
    simp only [withList]
    generalize app.conversations = held at hlist
    cases hlist with
    | unloaded =>
      by_cases he : safeEmail user = safeEmail email
      · rw [he] at hpath
        rw [value_eq_of_own hstore hpath]
        exact .own _ _ hpath
      · exact .other _ _ _ _ he

theorem Alike.listener_none {email : String} {app app' : App} (h : Alike email app app') :
    app'.listener = none ↔ app.listener = none := by
  cases h with
  | mk store listener conversations hstore hlist =>
    simp only [withList]
    generalize app.listener = l at hlist
    generalize app.conversations = held at hlist
    cases hlist <;> simp

/-- Events that leave the list. -/
theorem Alike.frame {email : String} {app app' app₁ : App} {g : App → Option App}
    (h : Alike email app app')
    (hg : ∀ store listener conversations, g (app.withList store listener conversations) =
      (g app).map (·.withList store listener conversations))
    (hframe : ∀ app₁, g app = some app₁ → app₁.store = app.store ∧ app₁.listener = app.listener ∧
      app₁.conversations = app.conversations)
    (hstep : g app = some app₁) : ∃ app₁', g app' = some app₁' ∧ Alike email app₁ app₁' := by
  cases h with
  | mk store listener conversations hstore hlist =>
    obtain ⟨hs, hl, hc⟩ := hframe app₁ hstep
    refine ⟨app₁.withList store listener conversations, by rw [hg, hstep]; rfl,
      .mk store listener conversations (by rw [hs]; exact hstore) (by rw [hl, hc]; exact hlist)⟩

theorem Alike.currentUser {email : String} {app app' : App} (h : Alike email app app') :
    app'.currentUser = app.currentUser := by
  cases h with
  | mk => rfl

theorem call_frame {app app₁ : App} {request : DatabaseManager → Request}
    (h : app.call request = some app₁) :
    app₁.store = app.store ∧ app₁.listener = app.listener ∧
      app₁.conversations = app.conversations := by
  obtain ⟨manager, rfl, -⟩ := call_eq_some h
  exact ⟨rfl, rfl, rfl⟩

theorem Alike.call {email : String} {app app' app₁ : App} (h : Alike email app app')
    (request : DatabaseManager → Request) (hcall : app.call request = some app₁) :
    ∃ app₁', app'.call request = some app₁' ∧ Alike email app₁ app₁' :=
  h.frame (g := fun a => a.call request) (fun _ _ _ => call_withList request)
    (fun _ => call_frame) hcall

/-- The same session event. -/
theorem Alike.session {email : String} {app app' : App} (h : Alike email app app')
    (user : Option String) :
    Alike email { app with currentUser := user } { app' with currentUser := user } := by
  cases h with
  | mk store listener conversations hstore hlist =>
    exact .mk store listener conversations hstore hlist

theorem Alike.startListinigForConversation {email : String} {app app' app₁ : App}
    (h : Alike email app app') (hstep : app.startListinigForConversation = some app₁) :
    ∃ app₁', app'.startListinigForConversation = some app₁' ∧ Alike email app₁ app₁' := by
  unfold App.startListinigForConversation at hstep ⊢
  cases hl : app.listener with
  | some l =>
    obtain ⟨m, hm⟩ := Option.ne_none_iff_exists'.1 fun hn => by
      rw [h.listener_none.1 hn] at hl; cases hl
    rw [hl] at hstep
    cases hstep
    exact ⟨app', by rw [hm], h⟩
  | none =>
    rw [hl] at hstep
    rw [h.listener_none.2 hl, h.currentUser]
    obtain ⟨user, huser, hstep⟩ := Option.bind_eq_some_iff.1 hstep
    obtain ⟨app₂, hcall, hstep⟩ := Option.bind_eq_some_iff.1 hstep
    obtain ⟨path, hpath, hstep⟩ := Option.bind_eq_some_iff.1 hstep
    cases hstep
    obtain ⟨app₂', hcall', h₂⟩ := h.call _ hcall
    have hl₂ : app₂.listener = none := by rw [(call_frame hcall).2.1, hl]
    refine ⟨_, ?_, h₂.listens hl₂ hpath⟩
    simp only [huser, hcall', hpath, Option.bind_eq_bind, Option.bind_some, Option.pure_def]

theorem Alike.valueEvent {email : String} {app app' : App} (h : Alike email app app') (i : Nat) :
    Alike email (app.valueEvent i) (app'.valueEvent i) := by
  cases h with
  | mk store listener conversations hstore hlist =>
    have hvalue : ∀ app : App, app.valueEvent i =
        { app with
          conversations := (app.listener.bind (·.snapshots[i]?)).elim app.conversations
            fun v => received app.conversations (conversationsOf v) } := fun app => by
      unfold App.valueEvent
      cases app.listener.bind (·.snapshots[i]?) <;> rfl
    rw [hvalue, hvalue]
    refine .mk store listener _ hstore ?_
    simp only [App.withList]
    generalize app.listener = l at hlist
    generalize app.conversations = held at hlist
    cases hlist with
    | unloaded => exact .unloaded _
    | own l held hpath => exact .own _ _ hpath
    | other l m held held' hne => exact .other _ _ _ _ hne

/-- **Processes that are alike stay alike under events that are alike.** -/
theorem Alike.step {email : String} {app app' app₁ : App} {e f : Event} (h : Alike email app app')
    (he : EventAlike email e f) (hstep : app.step e = some app₁) :
    ∃ app₁', app'.step f = some app₁' ∧ Alike email app₁ app₁' := by
  cases he with
  | changed db db' hdb => cases hstep; exact ⟨_, rfl, h.changed hdb⟩
  | same =>
    cases e with
    | login authResult =>
      cases authResult with
      | none => cases hstep; exact ⟨app', rfl, h⟩
      | some user => cases hstep; exact ⟨_, rfl, h.session (some user)⟩
    | signOut => cases hstep; exact ⟨_, rfl, h.session none⟩
    | register user => exact h.call (fun _ => .userExists user) hstep
    | search => exact h.call (fun _ => .getallUser) hstep
    | userCreated user chatUser =>
      exact (h.session (some user)).call (fun _ => .insertUser chatUser) hstep
    | conversationsLoaded => exact h.startListinigForConversation hstep
    | profileAppeared | chatOpened =>
      obtain ⟨user, huser, hstep⟩ := Option.bind_eq_some_iff.1 hstep
      cases hstep
      exact ⟨app', by simp only [App.step, h.currentUser, huser]; rfl, h⟩
    | send press =>
      refine h.frame (g := fun a => a.inputBar press) (fun _ _ _ => inputBar_withList press)
        (fun app₁ h₁ => ?_) hstep
      rcases inputBar_eq_some h₁ with rfl | ⟨user, manager, -, -, rfl⟩
      · exact ⟨rfl, rfl, rfl⟩
      · exact ⟨rfl, rfl, rfl⟩
    | changed db => cases hstep; exact ⟨_, rfl, h.changed rfl⟩
    | valueEvent i => cases hstep; exact ⟨_, rfl, h.valueEvent i⟩

/-- With the listener on the account's list, the same is held. -/
theorem Alike.conversations {email : String} {app app' : App} (h : Alike email app app')
    (hown : ∀ l, app.listener = some l → l.email = safeEmail email) :
    app'.conversations = app.conversations := by
  cases h with
  | mk store listener conversations _ hlist =>
    simp only [App.withList]
    generalize hl : app.listener = l at hlist
    generalize app.conversations = held at hlist
    cases hlist with
    | unloaded | own => rfl
    | other l m held held' hne => exact absurd (hown l hl) hne

/-- Without changes the store stays. -/
theorem run_store {app app' : App} {es : List Event} (hrun : app.run es = some app')
    (hes : ∀ db, .changed db ∉ es) : app'.store = app.store := by
  refine Machine.run_keeps (I := fun app' => app'.store = app.store) hrun rfl
    fun e he app₁ app₂ hkeep hstep => ?_
  cases step_effect hstep with
  | session | asks | creates | listens | received => exact hkeep
  | changed db hdb => exact absurd (hdb ▸ he) (hes db)

end App

/-- **A session shows its own conversations, when no other account signs in after the list was
loaded.** In every run whose sign-ins meet this, what is held while an account is signed in was at
some time in the account's own list; and it would be the same if anything outside this list were
different. -/
theorem session_rows_own {user : Option String} {store : Database} {es : List Event} {app : App}
    (hrun : (App.launch user store).run es = some app)
    (hmeets : Machine.Meets App.step SignsInListened (App.launch user store) es)
    {email : String} (huser : app.currentUser = some email) :
    (∀ c ∈ app.conversations, ∃ es' app', es' <+: es ∧
        (App.launch user store).run es' = some app' ∧ c ∈ ownConversations app'.store email) ∧
      ∀ store' es', ownValue store email = ownValue store' email →
        List.Forall₂ (App.EventAlike email) es es' →
        ∃ app', (App.launch user store').run es' = some app' ∧
          app'.conversations = app.conversations := by
  obtain ⟨hlistening, hown⟩ := Machine.run_inv
    (I := fun es app => App.Listening (App.launch user store) es app ∧ app.ListensToUser)
    hrun hmeets ⟨App.listening_launch user store, nofun⟩
    fun es e app₁ app₂ hrun₁ hinv hcond hstep =>
      ⟨hinv.1.step (by rw [App.run, Machine.run_append, hrun₁]; exact congrArg (·.bind some) hstep)
        hstep, hinv.2.step hcond hstep⟩
  refine ⟨fun c hc => ?_, fun store' es' hstore hes => ?_⟩
  · obtain ⟨l, v, hl, ⟨es', app', hpre, hrun', rfl⟩, hcv⟩ := hlistening.held c hc
    have hpath := hlistening.path l hl
    rw [hown l email hl huser] at hpath
    exact ⟨es', app', hpre, hrun', by rw [ownConversations, ownValue, hpath]; exact hcv⟩
  · obtain ⟨app', hrun', halike⟩ := Machine.run_related hrun (App.alike_launch user hstore) hes
      fun _ _ _ _ _ h he hstep => h.step he hstep
    exact ⟨app', hrun', halike.conversations fun l hl => hown l email hl huser⟩

/-- A store in which Ada has a conversation. -/
def adaCreated : Database := (exec adaToZain.call bothRegistered []).1

/-- Ada signs out and in again. -/
def adaAgain : List Event :=
  [.conversationsLoaded, .valueEvent 0, .signOut, .login (some "ada@mail.com")]

theorem session_rows_own_again :
    ∃ app, (App.launch (some "ada@mail.com") adaCreated).run adaAgain = some app ∧
      app.conversations = [adaToZain.conversation] ∧
      ∀ c ∈ app.conversations, ∃ es' app', es' <+: adaAgain ∧
        (App.launch (some "ada@mail.com") adaCreated).run es' = some app' ∧
        c ∈ ownConversations app'.store "ada@mail.com" := by
  refine ⟨_, rfl, by decide +kernel, (session_rows_own rfl ?_ rfl).1⟩
  refine Machine.meets_cons nofun rfl <| Machine.meets_cons nofun rfl <|
    Machine.meets_cons nofun rfl <| Machine.meets_cons (fun email l he hl => ?_) rfl trivial
  obtain rfl := Option.some.inj he
  obtain rfl := Option.some.inj hl
  rfl

/-- The account that signs in after the list was loaded sees the conversations of the one before. -/
theorem other_account_rows :
    ∃ app, (App.launch (some "ada@mail.com") adaCreated).run
        [.conversationsLoaded, .valueEvent 0, .signOut, .login (some "omar@mail.com")] = some app ∧
      app.currentUser = some "omar@mail.com" ∧
      ∃ c ∈ app.conversations, ∀ es' app', es' <+: [.conversationsLoaded, .valueEvent 0, .signOut,
          .login (some "omar@mail.com")] →
        (App.launch (some "ada@mail.com") adaCreated).run es' = some app' →
        c ∉ ownConversations app'.store "omar@mail.com" := by
  refine ⟨_, rfl, rfl, adaToZain.conversation, by decide +kernel, fun es' app' hpre hrun => ?_⟩
  have hstore := App.run_store hrun fun db h => by
    have := hpre.subset h
    simp at this
  rw [hstore]
  decide +kernel

end IChat
