import IChat.Controllers.Proof.Session
import IChat.Controllers.Register

/-!
# The registration screen

The gate: `createUser` is called as soon as the email and the password pass, whatever the names are
and whatever the existence check will answer (`gate_iff`). The profile: the completion of
`createUser` reads the fields again, so the user that is stored belongs to the account exactly when
the fields are as they were when Register was pressed (`handed_match_iff`).
-/

namespace IChat

open Async Firebase

/-! ## What a press of Register does -/

/-- A form that the chain of checks on email and password stops. -/
def Form.Stopped (count : String → Nat) (form : Form) : Prop :=
  form.email = "" ∨ form.password = "" ∨ count form.password < 6

def Form.nameAlerts (form : Form) : List String :=
  (if form.firstName.isEmpty then ["Please Enter First Name"] else []) ++
    if form.lastName.isEmpty then ["Please Enter Last Name"] else []

namespace RegisterViewController

variable {count : String → Nat} {s s' : RegisterViewController}

/-- Once the email and the password pass, `userExists` and `createUser` are called. -/
def ask (s : RegisterViewController) : Option RegisterViewController := do
  let app ← s.app.call fun _ => .userExists s.form.email
  let _ ← child (safeEmail s.form.email)
  return { s with
    alerts := s.alerts ++ s.form.nameAlerts
    app := app
    checks := s.checks ++ [s.form.email]
    signUps := s.signUps ++ [s.form]
    createUserCalls := s.createUserCalls ++ [(s.form.email, s.form.password)] }

theorem registerBtnTapped_eq : s.registerBtnTapped count =
    let named := { s with alerts := s.alerts ++ s.form.nameAlerts }
    if s.form.email.isEmpty then some (named.alert "Please Enter Email Address")
    else if s.form.password.isEmpty then some (named.alert "Please Enter Password")
    else if count s.form.password < 6 then
      some (named.alert "Please Enter Password more than 6 charachter")
    else s.ask := by
  cases hfirst : s.form.firstName.isEmpty <;> cases hlast : s.form.lastName.isEmpty <;>
    simp only [registerBtnTapped, ask, Form.nameAlerts, hfirst, hlast, alert, signUp,
      Bool.false_eq_true, ↓reduceIte, List.append_nil, List.nil_append, List.append_assoc,
      List.singleton_append]

theorem registerBtnTapped_stopped (h : s.form.Stopped count) :
    ∃ message, s.registerBtnTapped count =
      some { s with alerts := s.alerts ++ s.form.nameAlerts ++ [message] } := by
  rw [registerBtnTapped_eq]
  split
  · exact ⟨_, rfl⟩
  · split
    · exact ⟨_, rfl⟩
    · split
      · exact ⟨_, rfl⟩
      · rename_i hemail hpassword hcount
        rcases h with h | h | h
        · rw [h] at hemail; exact absurd rfl hemail
        · rw [h] at hpassword; exact absurd rfl hpassword
        · exact absurd h hcount

theorem registerBtnTapped_asks (h : ¬ s.form.Stopped count) :
    s.registerBtnTapped count = s.ask := by
  obtain ⟨hemail, h⟩ := not_or.1 h
  obtain ⟨hpassword, hcount⟩ := not_or.1 h
  rw [registerBtnTapped_eq]
  simp only [String.isEmpty_iff, hemail, hpassword, hcount, ↓reduceIte]

/-- Asking succeeds when `DatabaseManager.shared` is there or can be created, and the email has a
legal path. -/
theorem ask_isSome : s.ask.isSome ↔
    (s.app.manager.isSome ∨ s.app.currentUser.isSome) ∧
      (child (safeEmail s.form.email)).isSome := by
  unfold ask App.call App.shared
  cases s.app.manager <;> cases s.app.currentUser <;> cases child (safeEmail s.form.email) <;>
    simp

theorem ask_eq_some (h : s.ask = some s') :
    ∃ app, (s.app.call fun _ => .userExists s.form.email) = some app ∧
      s' = { s with
        alerts := s.alerts ++ s.form.nameAlerts
        app := app
        checks := s.checks ++ [s.form.email]
        signUps := s.signUps ++ [s.form]
        createUserCalls := s.createUserCalls ++ [(s.form.email, s.form.password)] } := by
  obtain ⟨app, hcall, h⟩ := Option.bind_eq_some_iff.1 h
  obtain ⟨p, -, h⟩ := Option.bind_eq_some_iff.1 h
  cases h
  exact ⟨app, hcall, rfl⟩

theorem ask_createUserCalls (h : s.ask = some s') :
    s'.createUserCalls = s.createUserCalls ++ [(s.form.email, s.form.password)] := by
  obtain ⟨app, -, rfl⟩ := ask_eq_some h
  rfl

/-- A press of Register presents alerts or asks. -/
theorem registerBtnTapped_eq_some (h : s.registerBtnTapped count = some s') :
    (s.form.Stopped count ∧ ∃ alerts, s' = { s with alerts := alerts }) ∨
      (¬ s.form.Stopped count ∧ s.ask = some s') := by
  by_cases hstop : s.form.Stopped count
  · obtain ⟨message, hpress⟩ := registerBtnTapped_stopped hstop
    rw [hpress] at h
    cases h
    exact .inl ⟨hstop, _, rfl⟩
  · rw [registerBtnTapped_asks hstop] at h
    exact .inr ⟨hstop, h⟩

/-! ## What the completions do -/

theorem userExists_eq (i : Nat) : ∃ checks alerts, s.userExists i =
    { s with checks := checks, alerts := s.alerts ++ alerts } := by
  unfold userExists
  split
  · exact ⟨s.checks, [], by rw [List.append_nil]⟩
  · dsimp only
    split
    · exact ⟨_, [], by rw [List.append_nil]⟩
    · split
      · exact ⟨_, ["email is already exisits"], rfl⟩
      · exact ⟨_, [], by rw [List.append_nil]⟩

/-- A completion of `createUser` hands over the user in the fields, or none. -/
theorem createUser_eq_some {i : Nat} {success : Bool} (h : s.createUser i success = some s') :
    (∃ signUps, s' = { s with signUps := signUps } ∧
        ¬ (success = true ∧ ∃ pressed, s.signUps[i]? = some pressed)) ∨
      ∃ pressed app, success = true ∧ s.signUps[i]? = some pressed ∧
        s' = { s with
          signUps := s.signUps.eraseIdx i
          app := app
          dismissed := true
          handed := s.handed ++ [(pressed, s.form.chatUser)] } := by
  unfold createUser at h
  cases hi : s.signUps[i]? with
  | none =>
    rw [hi] at h
    cases h
    exact .inl ⟨_, rfl, by rintro ⟨-, pressed, hp⟩; cases hp⟩
  | some pressed =>
    rw [hi] at h
    cases success with
    | false =>
      cases h
      exact .inl ⟨_, rfl, by rintro ⟨hs, -⟩; cases hs⟩
    | true =>
      obtain ⟨app, -, h⟩ := Option.bind_eq_some_iff.1 h
      obtain ⟨p, -, h⟩ := Option.bind_eq_some_iff.1 h
      cases h
      exact .inr ⟨pressed, app, rfl, rfl, rfl⟩

/-! ## The gate -/

/-- Every event but a press of Register leaves the calls of `createUser` and the alerts. -/
theorem step_quiet {e : RegisterEvent} (he : e ≠ .registerBtnTapped)
    (h : s.step count e = some s') :
    s'.createUserCalls = s.createUserCalls ∧ s.alerts <+: s'.alerts := by
  cases e with
  | registerBtnTapped => exact absurd rfl he
  | edit form => cases h; exact ⟨rfl, List.prefix_rfl⟩
  | changed db => cases h; exact ⟨rfl, List.prefix_rfl⟩
  | userExists i =>
    cases h
    obtain ⟨checks, alerts, heq⟩ := userExists_eq (s := s) i
    rw [heq]
    exact ⟨rfl, List.prefix_append _ _⟩
  | createUser i success =>
    rcases createUser_eq_some h with ⟨signUps, rfl, -⟩ | ⟨pressed, app, -, -, rfl⟩ <;>
      exact ⟨rfl, List.prefix_rfl⟩

theorem quiet_run {es : List RegisterEvent}
    (hrun : Machine.run (fun s => s.step count) s es = some s')
    (hquiet : ∀ e ∈ es, e ≠ .registerBtnTapped) :
    s'.createUserCalls = s.createUserCalls ∧ s.alerts <+: s'.alerts := by
  refine Machine.run_keeps (I := fun s' : RegisterViewController =>
      s'.createUserCalls = s.createUserCalls ∧ s.alerts <+: s'.alerts) hrun ⟨rfl, List.prefix_rfl⟩
    fun e he s₁ s₂ hinv hstep => ?_
  obtain ⟨hcalls, halerts⟩ := step_quiet (hquiet e he) hstep
  exact ⟨hcalls.trans hinv.1, List.IsPrefix.trans hinv.2 halerts⟩

end RegisterViewController

/-- All fields are filled, and the password has six characters. -/
def Form.Complete (count : String → Nat) (form : Form) : Prop :=
  form.firstName ≠ "" ∧ form.lastName ≠ "" ∧ form.email ≠ "" ∧ form.password ≠ "" ∧
    6 ≤ count form.password

theorem Form.Complete.not_stopped {count : String → Nat} {form : Form} (h : form.Complete count) :
    ¬ form.Stopped count := by
  obtain ⟨-, -, hemail, hpassword, hcount⟩ := h
  intro h
  rcases h with h | h | h
  · exact hemail h
  · exact hpassword h
  · omega

theorem Form.Complete.of_not_stopped {count : String → Nat} {form : Form}
    (hfirst : form.firstName ≠ "") (hlast : form.lastName ≠ "") (h : ¬ form.Stopped count) :
    form.Complete count := by
  obtain ⟨hemail, h⟩ := not_or.1 h
  obtain ⟨hpassword, hcount⟩ := not_or.1 h
  exact ⟨hfirst, hlast, hemail, hpassword, Nat.not_lt.1 hcount⟩

/-- A user's node is stored for the email. -/
def Registered (db : Database) (email : String) : Prop :=
  ∃ p firstName lastName, child (safeEmail email) = some p ∧
    (db.value p).field "first_name" = .str firstName ∧
    (db.value p).field "last_name" = .str lastName

namespace RegisterViewController

variable {count : String → Nat} {s s' : RegisterViewController}

/-- The form is complete and its email is new. -/
def Admitted (count : String → Nat) (s : RegisterViewController) : Prop :=
  s.form.Complete count ∧ ¬ Registered s.app.store s.form.email

/-- What a press of Register should lead to, whatever happens until the next one: one call of
`createUser` for an admitted form, else none and, when no check is open, an alert. -/
def GateOk (count : String → Nat) (s : RegisterViewController) : Prop :=
  ∃ s₁, s.registerBtnTapped count = some s₁ ∧
    ∀ es s', (∀ e ∈ es, e ≠ RegisterEvent.registerBtnTapped) →
      Machine.run (fun s => s.step count) s₁ es = some s' →
      (Admitted count s →
        s'.createUserCalls = s.createUserCalls ++ [(s.form.email, s.form.password)]) ∧
      (¬ Admitted count s →
        s'.createUserCalls = s.createUserCalls ∧
          (s'.checks = [] → s.alerts.length < s'.alerts.length))

/-- **The gate is right exactly for forms that the checks of email and password stop, and for new
users with both names, if asking for the email does not end the process.** -/
theorem gate_iff : GateOk count s ↔
    s.form.Stopped count ∨
      (s.form.firstName ≠ "" ∧ s.form.lastName ≠ "" ∧
        (s.app.manager.isSome ∨ s.app.currentUser.isSome) ∧
        (child (safeEmail s.form.email)).isSome ∧ ¬ Registered s.app.store s.form.email) := by
  by_cases hstop : s.form.Stopped count
  · refine iff_of_true ?_ (.inl hstop)
    obtain ⟨message, hpress⟩ := registerBtnTapped_stopped hstop
    refine ⟨_, hpress, fun es s' hquiet hrun => ?_⟩
    obtain ⟨hcalls, halerts⟩ := quiet_run hrun hquiet
    refine ⟨fun hadm => absurd hstop hadm.1.not_stopped, fun _ => ⟨hcalls, fun _ => ?_⟩⟩
    have hlen := halerts.length_le
    simp only [List.length_append, List.length_singleton] at hlen
    omega
  · rw [or_iff_right hstop, GateOk, registerBtnTapped_asks hstop]
    constructor
    · intro h
      obtain ⟨s₁, hask, hall⟩ := h
      obtain ⟨hshared, hpath⟩ := ask_isSome.1 (by rw [hask]; rfl)
      obtain ⟨-, hnone⟩ := hall [] s₁ (fun _ h => absurd h List.not_mem_nil) rfl
      have hadm : Admitted count s := by
        by_contra hnot
        -- `createUser` was called for a form that is not admitted
        have hcalls := (ask_createUserCalls hask).symm.trans (hnone hnot).1
        simpa using congrArg List.length hcalls
      exact ⟨hadm.1.1, hadm.1.2.1, hshared, hpath, hadm.2⟩
    · intro h
      obtain ⟨hfirst, hlast, hshared, hpath, hnew⟩ := h
      obtain ⟨s₁, hask⟩ := Option.isSome_iff_exists.1 (ask_isSome.2 ⟨hshared, hpath⟩)
      refine ⟨s₁, hask, fun es s' hquiet hrun => ⟨fun _ => ?_, fun hnot => ?_⟩⟩
      · rw [(quiet_run hrun hquiet).1, ask_createUserCalls hask]
      · exact absurd ⟨.of_not_stopped hfirst hlast hstop, hnew⟩ hnot

/-- The application after Ada signed out. -/
def adaSignedOut : App := { App.launch none registered with manager := some ⟨"ada@mail.com"⟩ }

/-- The registration screen with the given texts. -/
def filled (form : Form) : RegisterViewController := { opened adaSignedOut with form := form }

theorem registered_ada : Registered registered "ada@mail.com" :=
  ⟨["ada-mail-com"], "Ada", "Said", by decide +kernel, rfl, rfl⟩

/-- `createUser` is called without names, and for a registered email. -/
theorem gate_admits :
    ¬ GateOk (fun password => password.toList.length)
        (filled ⟨"", "", "zain@mail.com", "secret"⟩) ∧
      ¬ GateOk (fun password => password.toList.length)
        (filled ⟨"Ada", "Said", "ada@mail.com", "secret"⟩) := by
  have hbad : ∀ form : Form, ¬ form.Stopped (fun password => password.toList.length) →
      ¬ Admitted (fun password => password.toList.length) (filled form) →
      ¬ GateOk (fun password => password.toList.length) (filled form) := by
    rintro form hstop hnot ⟨s₁, hpress, hall⟩
    rw [registerBtnTapped_asks hstop] at hpress
    obtain ⟨-, hnone⟩ := hall [] s₁ (fun _ h => absurd h List.not_mem_nil) rfl
    have hcalls := (ask_createUserCalls hpress).symm.trans (hnone hnot).1
    cases hcalls
  refine ⟨hbad _ ?_ fun h => h.1.1 rfl, hbad _ ?_ fun h => h.2 registered_ada⟩ <;>
    rintro (h | h | h) <;> exact absurd h (by decide)

/-! ## The profile -/

/-- The user handed to `insertUser`, and the name of the picture, are those of the form that was
submitted. -/
structure Matches (pressed : Form) (chatUser : ChatAppUser) : Prop where
  email : chatUser.email = pressed.email
  firstName : chatUser.firstName = pressed.firstName
  lastName : chatUser.lastName = pressed.lastName
  profilePictureFileName : chatUser.profilePictureFileName =
    pressed.chatUser.profilePictureFileName

/-- The names and the email are as they were when Register was pressed, when `createUser` completes
with a result. -/
def Unedited (s : RegisterViewController) (e : RegisterEvent) : Prop :=
  ∀ i pressed, e = .createUser i true → s.signUps[i]? = some pressed →
    s.form.email = pressed.email ∧ s.form.firstName = pressed.firstName ∧
      s.form.lastName = pressed.lastName

theorem matches_iff {form pressed : Form} : Matches pressed form.chatUser ↔
    form.email = pressed.email ∧ form.firstName = pressed.firstName ∧
      form.lastName = pressed.lastName := by
  refine ⟨fun h => ⟨h.email, h.firstName, h.lastName⟩, fun ⟨hemail, hfirst, hlast⟩ => ?_⟩
  have huser : form.chatUser = pressed.chatUser := by
    rw [Form.chatUser, Form.chatUser, hemail, hfirst, hlast]
  exact ⟨hemail, hfirst, hlast, by rw [huser]⟩

/-- A press of Register hands over nothing. -/
theorem registerBtnTapped_handed (h : s.registerBtnTapped count = some s') :
    s'.handed = s.handed := by
  rcases registerBtnTapped_eq_some h with ⟨-, alerts, rfl⟩ | ⟨-, hask⟩
  · rfl
  · obtain ⟨app, -, rfl⟩ := ask_eq_some hask
    rfl

/-- **Step lemma**. -/
theorem step_handed_iff {e : RegisterEvent} (h : s.step count e = some s') :
    (∀ x ∈ s'.handed, Matches x.1 x.2) ↔
      (∀ x ∈ s.handed, Matches x.1 x.2) ∧ Unedited s e := by
  have hsame : s'.handed = s.handed → Unedited s e →
      ((∀ x ∈ s'.handed, Matches x.1 x.2) ↔
        (∀ x ∈ s.handed, Matches x.1 x.2) ∧ Unedited s e) := fun he hun => by
    rw [he]
    exact (and_iff_left hun).symm
  cases e with
  | edit form => cases h; exact hsame rfl (fun _ _ he => by cases he)
  | changed db => cases h; exact hsame rfl (fun _ _ he => by cases he)
  | registerBtnTapped =>
    exact hsame (registerBtnTapped_handed h) (fun _ _ he => by cases he)
  | userExists i =>
    cases h
    obtain ⟨checks, alerts, heq⟩ := userExists_eq (s := s) i
    exact hsame (by rw [heq]) (fun _ _ he => by cases he)
  | createUser i success =>
    rcases createUser_eq_some h with ⟨signUps, rfl, hno⟩ | ⟨pressed, app, rfl, hi, rfl⟩
    · refine hsame rfl fun j pressed he hj => ?_
      cases he
      exact absurd ⟨rfl, pressed, hj⟩ hno
    · simp only [List.forall_mem_append, List.forall_mem_singleton, matches_iff]
      refine and_congr_right fun _ => ?_
      constructor
      · intro hm j pressed' he hj
        cases he
        rw [hi] at hj
        cases hj
        exact hm
      · intro hun
        exact hun i pressed rfl hi

/-- **The stored profiles belong to the accounts exactly when the fields are unedited at every
successful completion of `createUser`.** -/
theorem handed_match_iff {app : App} {es : List RegisterEvent}
    (hrun : Machine.run (fun s => s.step count) (opened app) es = some s') :
    (∀ x ∈ s'.handed, Matches x.1 x.2) ↔
      Machine.Meets (fun s => s.step count) Unedited (opened app) es := by
  rw [Machine.run_iff hrun fun _ _ _ h => step_handed_iff h]
  exact and_iff_right fun x hx => absurd hx List.not_mem_nil

def zainForm : Form := ⟨"Zain", "Ali", "zain@mail.com", "secret"⟩

/-- Zain submits the form, changes the email, and the account is created. -/
def zainRegisters (email : String) : List RegisterEvent :=
  [.edit zainForm, .registerBtnTapped, .edit { zainForm with email := email }, .createUser 0 true]

/-- The email is written again. -/
theorem handed_match_zain : ∃ s',
    Machine.run (fun s => s.step fun password => password.toList.length) (opened adaSignedOut)
        (zainRegisters "zain@mail.com") = some s' ∧
      ((∀ x ∈ s'.handed, Matches x.1 x.2) ↔
        Machine.Meets (fun s => s.step fun password => password.toList.length) Unedited
          (opened adaSignedOut) (zainRegisters "zain@mail.com")) :=
  ⟨_, rfl, handed_match_iff rfl⟩

/-- The user is stored under an email that is not the account's. -/
theorem profile_of_other_email : ∃ s',
    Machine.run (fun s => s.step fun password => password.toList.length) (opened adaSignedOut)
        (zainRegisters "ali@mail.com") = some s' ∧
      s'.createUserCalls = [("zain@mail.com", "secret")] ∧
      s'.handed = [(zainForm, ⟨"Zain", "Ali", "ali@mail.com"⟩)] ∧
      ¬ ∀ x ∈ s'.handed, Matches x.1 x.2 := by
  refine ⟨_, rfl, rfl, rfl, fun h => ?_⟩
  exact absurd (h _ (.head _)).email (by decide)

end RegisterViewController

end IChat
