import IChat.Controllers.Proof.Registration
import IChat.Controllers.Screens

/-!
# The session at the forced unwraps

Once the view of `ConversationViewController` is loaded, `DatabaseManager.shared` is there, and
whenever nobody is signed in, Login covers the tabs (`Guarded`): every unwrap of the session after
that finds an account. The first view unwraps it before `viewDidAppear` could present Login, so the
unwraps are safe exactly in the runs of a process launched with a session (`unwraps_isSome_iff`).
-/

namespace IChat

open Firebase

/-- The account signed in after the event. -/
def Event.session : Event → Option String → Option String
  | .signOut, _ => none
  | .login (some email), _ | .userCreated email _, _ => some email
  | _, user => user

/-- The event unwraps the session also when `DatabaseManager.shared` is there. -/
def Event.UnwrapsSession : Event → Prop
  | .conversationsLoaded | .profileAppeared | .chatOpened | .send _ => True
  | _ => False

/-! ## What ends the process -/

namespace App

variable {app app' : App} {e : Event} {es : List Event} {v : Option String}

theorem call_eq_none_iff {request : DatabaseManager → Request} :
    app.call request = none ↔ none ∈ app.unwrapsShared := by
  unfold call shared unwrapsShared
  cases app.manager with
  | some manager => simp
  | none => cases app.currentUser <;> simp

theorem mem_unwrapsShared (hv : v ∈ app.unwrapsShared) : v = app.currentUser := by
  unfold unwrapsShared at hv
  split at hv
  · cases hv
  · exact List.mem_singleton.1 hv

theorem none_notMem_unwrapsShared {email : String} (huser : app.currentUser = some email) :
    none ∉ app.unwrapsShared := by
  intro hnone
  rw [← mem_unwrapsShared hnone] at huser
  cases huser

theorem startListinigForConversation_eq_none_iff :
    app.startListinigForConversation = none ↔
      none ∈ app.unwraps .conversationsLoaded ∨ app.listener = none ∧
        ∃ email, app.currentUser = some email ∧
          child (safeEmail email ++ "/conversations") = none := by
  unfold startListinigForConversation unwraps
  cases app.listener with
  | some l => simp
  | none =>
    cases huser : app.currentUser with
    | none => simp
    | some email =>
      have hshared := none_notMem_unwrapsShared huser
      obtain ⟨app₁, hcall⟩ := Option.ne_none_iff_exists'.1
        (fun h => hshared (call_eq_none_iff.1 h) :
          app.call (fun _ => .getAllConversation (safeEmail email)) ≠ none)
      cases hpath : child (safeEmail email ++ "/conversations") <;> simp [hcall, hshared, hpath]

theorem inputBar_eq_none_iff {press : Press} :
    app.inputBar press = none ↔ none ∈ app.unwraps (.send press) := by
  simp only [inputBar, unwraps]
  split
  · simp
  · cases huser : app.currentUser with
    | none => simp
    | some email =>
      have hshared := none_notMem_unwrapsShared huser
      by_cases hnew : press.chat.isNewConversation <;> simp [hnew, call_eq_none_iff]

/-- **What ends the process**: an unwrap of `nil`, or the listener's path. -/
theorem step_eq_none_iff : app.step e = none ↔ none ∈ app.unwraps e ∨
    e = .conversationsLoaded ∧ app.listener = none ∧
      ∃ email, app.currentUser = some email ∧
        child (safeEmail email ++ "/conversations") = none := by
  cases e with
  | login authResult => cases authResult <;> simp [step, unwraps]
  | signOut | changed | valueEvent => simp [step, unwraps]
  | register | userCreated | search => simp [step, unwraps, call_eq_none_iff]
  | conversationsLoaded => simp [step, startListinigForConversation_eq_none_iff]
  | profileAppeared | chatOpened =>
    cases huser : app.currentUser <;> simp [step, unwraps, huser]
  | send press => simp [step, inputBar_eq_none_iff]

/-! ## What stays -/

theorem step_manager (h : app.step e = some app') (hm : app.manager.isSome) :
    app'.manager.isSome := by
  cases step_effect h with
  | session | changed | received => exact hm
  | asks | creates | listens => rfl

/-- The session after an event. -/
theorem step_currentUser (h : app.step e = some app') :
    app'.currentUser = e.session app.currentUser := by
  cases e with
  | login authResult => cases authResult <;> (cases h; rfl)
  | signOut | changed => cases h; rfl
  | register | userCreated | search =>
    simp only [step] at h
    obtain ⟨manager, rfl, -⟩ := call_eq_some h
    rfl
  | conversationsLoaded =>
    rcases startListinigForConversation_eq_some h with ⟨-, rfl⟩ | ⟨_, _, _, -, -, -, rfl⟩ <;> rfl
  | profileAppeared | chatOpened =>
    obtain ⟨-, -, h⟩ := Option.bind_eq_some_iff.1 h
    cases h
    rfl
  | send press =>
    rcases inputBar_eq_some h with rfl | ⟨_, _, -, -, rfl⟩ <;> rfl
  | valueEvent i =>
    cases h
    unfold valueEvent
    split <;> rfl

theorem Event.session_isSome {user : Option String} (he : e ≠ .signOut) (hu : user.isSome) :
    (e.session user).isSome := by
  cases e with
  | signOut => exact absurd rfl he
  | login authResult => cases authResult <;> trivial
  | userCreated => rfl
  | _ => exact hu

theorem Event.session_of_signsIn {user : Option String} (he : e.signsIn.isSome) :
    (e.session user).isSome := by
  cases e with
  | login authResult => cases authResult <;> trivial
  | userCreated => rfl
  | _ => cases he

/-! ## What an event unwraps -/

/-- An event unwraps the session that it leaves. -/
theorem mem_unwraps (hv : v ∈ app.unwraps e) : v = e.session app.currentUser := by
  cases e with
  | login | signOut | changed | valueEvent => cases hv
  | register | search | userCreated => exact mem_unwrapsShared hv
  | profileAppeared | chatOpened => exact List.mem_singleton.1 hv
  | conversationsLoaded =>
    simp only [unwraps] at hv
    split at hv
    · cases hv
    · rcases List.mem_cons.1 hv with rfl | hv
      · rfl
      · exact mem_unwrapsShared hv
  | send press =>
    simp only [unwraps] at hv
    split at hv
    · cases hv
    · rcases List.mem_cons.1 hv with rfl | hv
      · rfl
      · split at hv
        · exact mem_unwrapsShared hv
        · cases hv

/-- An account signed in is all that an event needs. -/
theorem unwraps_isSome (huser : app.currentUser.isSome) (hv : v ∈ app.unwraps e) : v.isSome := by
  have he : e ≠ .signOut := by
    intro he
    subst he
    cases hv
  rw [mem_unwraps hv]
  exact Event.session_isSome he huser

theorem mem_unwrapsAll_cons : v ∈ app.unwrapsAll (e :: es) ↔
    v ∈ app.unwraps e ∨ ∃ app', app.step e = some app' ∧ v ∈ app'.unwrapsAll es := by
  rw [unwrapsAll, List.mem_append]
  cases app.step e <;> simp

theorem unwrapsAll_isSome (huser : app.currentUser.isSome) (hes : ∀ e ∈ es, e ≠ .signOut)
    (hv : v ∈ app.unwrapsAll es) : v.isSome := by
  induction es generalizing app with
  | nil => cases hv
  | cons e es ih =>
    rcases mem_unwrapsAll_cons.1 hv with hv | ⟨app', hstep, hv⟩
    · exact unwraps_isSome huser hv
    · refine ih ?_ (fun e' he' => hes e' (.tail _ he')) hv
      rw [step_currentUser hstep]
      exact Event.session_isSome (hes e (.head _)) huser

theorem unwraps_eq_nil (hm : app.manager.isSome) (he : ¬ e.UnwrapsSession) :
    app.unwraps e = [] := by
  obtain ⟨manager, hm⟩ := Option.isSome_iff_exists.1 hm
  cases e with
  | conversationsLoaded | profileAppeared | chatOpened | send => exact absurd trivial he
  | register | userCreated | search => simp only [unwraps, unwrapsShared, hm]
  | login | signOut | changed | valueEvent => rfl

theorem unwrapsAll_eq_nil (hm : app.manager.isSome) (hes : ∀ e ∈ es, ¬ e.UnwrapsSession) :
    app.unwrapsAll es = [] := by
  induction es generalizing app with
  | nil => rfl
  | cons e es ih =>
    rw [unwrapsAll, unwraps_eq_nil hm (hes e (.head _)), List.nil_append]
    split
    · rename_i app' hstep
      exact ih (step_manager hstep hm) fun e' he' => hes e' (.tail _ he')
    · rfl

/-! ## What a list of events keeps -/

theorem run_manager (h : app.run es = some app') (hm : app.manager.isSome) :
    app'.manager.isSome :=
  Machine.run_keeps (I := fun app => app.manager.isSome) h hm
    fun _ _ _ _ hm hstep => step_manager hstep hm

theorem run_user (h : app.run es = some app') (hes : ∀ e ∈ es, e ≠ .signOut)
    (huser : app.currentUser.isSome) : app'.currentUser.isSome := by
  refine Machine.run_keeps (I := fun app => app.currentUser.isSome) h huser
    fun e he app₁ app₂ huser hstep => ?_
  rw [step_currentUser hstep]
  exact Event.session_isSome (hes e he) huser

/-! ## After an account signs in -/

theorem run_signsIn (h : app.run (e :: es) = some app') (he : e.signsIn.isSome)
    (hes : ∀ e ∈ es, e ≠ .signOut) : app'.currentUser.isSome := by
  obtain ⟨app₁, hstep, hrun⟩ := Option.bind_eq_some_iff.1 h
  refine run_user hrun hes ?_
  rw [step_currentUser hstep]
  exact Event.session_of_signsIn he

theorem unwrapsAll_signsIn (hm : app.manager.isSome) (he : e.signsIn.isSome)
    (hes : ∀ e ∈ es, e ≠ .signOut) (hv : v ∈ app.unwrapsAll (e :: es)) : v.isSome := by
  have hsilent : ¬ e.UnwrapsSession := by
    cases e with
    | login | userCreated => exact id
    | _ => cases he
  rcases mem_unwrapsAll_cons.1 hv with hv | ⟨app', hstep, hv⟩
  · rw [unwraps_eq_nil hm hsilent] at hv
    cases hv
  · refine unwrapsAll_isSome ?_ hes hv
    rw [step_currentUser hstep]
    exact Event.session_of_signsIn he

end App

/-! ## The registration form -/

theorem Form.passes_iff {count : String → Nat} {form : Form} :
    form.passes count ↔ ¬ form.Stopped count := by
  simp [Form.passes, Form.Stopped, and_assoc]

/-- What a press of Register makes the process do. -/
theorem RegisterViewController.registerBtnTapped_run {count : String → Nat}
    {s s' : RegisterViewController} (h : s.registerBtnTapped count = some s') :
    s.app.run (if s.form.passes count then [.register s.form.email] else []) = some s'.app := by
  rcases registerBtnTapped_eq_some h with ⟨hstopped, alerts, rfl⟩ | ⟨hstopped, hask⟩
  · rw [if_neg fun hp => Form.passes_iff.1 hp hstopped]
    rfl
  · obtain ⟨app, hcall, rfl⟩ := ask_eq_some hask
    rw [if_pos (Form.passes_iff.2 hstopped)]
    exact Option.bind_eq_some_iff.2 ⟨app, hcall, rfl⟩

namespace Screens

variable {count : String → Nat} {s s' t : Screens} {e : ScreenEvent} {es : List Event}

/-! ## What an event shows -/

/-- A completion may dismiss Login, and does not sign out then. -/
theorem dismissLogin_eq (s : Screens) (dismisses : Bool) : ∃ modal es,
    (if dismisses then s.dismissLogin else (s, [])) = ({ s with modal := modal }, es) ∧
      ∀ e ∈ es, e ≠ .signOut := by
  cases dismisses with
  | false => exact ⟨s.modal, [], rfl, by simp⟩
  | true =>
    simp only [dismissLogin, ↓reduceIte]
    split
    · exact ⟨none, [.profileAppeared], rfl, by simp⟩
    · exact ⟨none, [], rfl, by simp⟩
    · exact ⟨s.modal, [], rfl, by simp⟩

/-- The first view stays loaded. Only Log out signs out, and it presents Login. -/
theorem react_spec (h : s.react count e = some (t, es)) :
    (s.loaded → t.loaded) ∧
      ((∀ e ∈ es, e ≠ .signOut) ∨ es = [.signOut] ∧ t.modal = some (.login false)) := by
  cases e with
  | logOut => cases h; exact ⟨id, .inr ⟨rfl, rfl⟩⟩
  | viewDidLoad => cases h; exact ⟨fun _ => rfl, .inl (by simp)⟩
  | viewDidAppear =>
    cases h
    cases s.app.currentUser <;> exact ⟨id, .inl (by simp)⟩
  | showProfile =>
    cases h
    exact ⟨id, .inl (by split <;> simp)⟩
  | showChats | didTapCompose | dismissSelf | search | back | didTapRegister | backToLogin
      | changed | valueEvent =>
    cases h
    exact ⟨id, .inl (by simp)⟩
  | selectUser result =>
    obtain ⟨chat, -, h⟩ := Option.bind_eq_some_iff.1 h
    cases h
    exact ⟨id, .inl (by simp)⟩
  | selectRow i =>
    simp only [react] at h
    split at h <;> (cases h; exact ⟨id, .inl (by simp)⟩)
  | send press =>
    cases h
    exact ⟨id, .inl (by split <;> simp)⟩
  | registerBtnTapped form =>
    cases h
    exact ⟨id, .inl (by split <;> simp)⟩
  | login dismisses authResult =>
    obtain ⟨modal, es', heq, hes'⟩ := s.dismissLogin_eq (authResult.isSome && dismisses)
    simp only [react, heq] at h
    cases h
    exact ⟨id, .inl (by simpa using hes')⟩
  | userCreated dismisses email chatUser =>
    obtain ⟨modal, es', heq, hes'⟩ := s.dismissLogin_eq dismisses
    simp only [react, heq] at h
    cases h
    exact ⟨id, .inl (by simpa using hes')⟩

/-- What an event does while Login covers the tabs: Login stays and nothing unwraps the session, or
an account signs in first. -/
inductive BehindLogin (t : Screens) : List Event → Prop
  | stays {es : List Event} (registering : Bool) (h : t.modal = some (.login registering))
    (hes : ∀ e ∈ es, ¬ e.UnwrapsSession) : BehindLogin t es
  | signsIn {e : Event} {es : List Event} (he : e.signsIn.isSome)
    (hes : ∀ e ∈ es, e ≠ .signOut) : BehindLogin t (e :: es)

theorem react_behindLogin {registering : Bool} (hmodal : s.modal = some (.login registering))
    (hloaded : s.loaded) (hallows : s.allows e) (h : s.react count e = some (t, es)) :
    BehindLogin t es := by
  cases e with
  | viewDidLoad => simp [allows, hloaded] at hallows
  | viewDidAppear | didTapCompose | selectRow | showChats | logOut | showProfile | back | send =>
    simp [allows, showsConversations, uncovered, hmodal] at hallows
  | dismissSelf | search | selectUser => simp [allows, hmodal] at hallows
  | login dismisses authResult =>
    cases authResult with
    | none =>
      cases h
      exact .stays registering hmodal (by simp [Event.UnwrapsSession])
    | some email =>
      obtain ⟨modal, es', heq, hes'⟩ := s.dismissLogin_eq dismisses
      simp only [react, Option.isSome_some, Bool.true_and, heq] at h
      cases h
      exact .signsIn rfl hes'
  | userCreated dismisses email chatUser =>
    obtain ⟨modal, es', heq, hes'⟩ := s.dismissLogin_eq dismisses
    simp only [react, heq] at h
    cases h
    exact .signsIn rfl hes'
  | didTapRegister | backToLogin => cases h; exact .stays _ rfl (by simp)
  | registerBtnTapped form =>
    cases h
    refine .stays registering hmodal ?_
    split
    · simp [Event.UnwrapsSession]
    · simp
  | changed | valueEvent =>
    cases h
    exact .stays registering hmodal (by simp [Event.UnwrapsSession])

/-- The screens guard the session: somebody is signed in until the first view is loaded, and after
that whenever Login does not cover the tabs. -/
structure Guarded (s : Screens) : Prop where
  user : s.loaded = false → s.app.currentUser.isSome
  listener : s.loaded = false → s.app.listener = none
  manager : s.loaded = true → s.app.manager.isSome
  covered : s.loaded = true → s.app.currentUser = none →
    ∃ registering, s.modal = some (.login registering)

theorem guarded_launch (email : String) (store : Database) :
    Guarded (launch (some email) store) where
  user _ := rfl
  listener _ := rfl
  manager h := by cases h
  covered h := by cases h

/-- What a step does: nothing, or a reaction and what the process makes of it. -/
theorem step_eq_some (h : s.step count e = some s') : s' = s ∨ s.allows e ∧
    ∃ t es app, s.react count e = some (t, es) ∧ s.app.run es = some app ∧
      s' = { t with app := app } := by
  unfold step at h
  split at h
  · rename_i hallows
    obtain ⟨⟨t, es⟩, hreact, h⟩ := Option.bind_eq_some_iff.1 h
    obtain ⟨app, hrun, h⟩ := Option.bind_eq_some_iff.1 h
    cases h
    exact .inr ⟨hallows, t, es, app, hreact, hrun, rfl⟩
  · cases h
    exact .inl rfl

/-- Before the first view is loaded there is only its load, and what other clients write. -/
theorem allows_unloaded (hloaded : s.loaded = false) (hallows : s.allows e) :
    e = .viewDidLoad ∨ ∃ db, e = .changed db := by
  cases e with
  | viewDidLoad => exact .inl rfl
  | changed db => exact .inr ⟨db, rfl⟩
  | _ => simp [allows, showsConversations, uncovered, hloaded] at hallows

/-- The load of the first view creates `DatabaseManager.shared`. -/
theorem guarded_viewDidLoad (hg : Guarded s) (hloaded : s.loaded = false) {app : App}
    (hrun : s.app.run [.conversationsLoaded] = some app) :
    Guarded { s with loaded := true, app := app } := by
  obtain ⟨app₁, hstep, hnil⟩ := Option.bind_eq_some_iff.1 hrun
  cases hnil
  rcases App.startListinigForConversation_eq_some hstep with
    ⟨⟨l, hl⟩, -⟩ | ⟨email, manager, path, -, huser, -, rfl⟩
  · rw [hg.listener hloaded] at hl
    cases hl
  · refine ⟨fun h => ?_, fun h => ?_, fun _ => rfl, fun _ hnone => ?_⟩
    · cases h
    · cases h
    · rw [huser] at hnone
      cases hnone

/-- **Every event keeps the session guarded.** -/
theorem guarded_step (hg : Guarded s) (h : s.step count e = some s') : Guarded s' := by
  rcases step_eq_some h with rfl | ⟨hallows, t, es, app, hreact, hrun, rfl⟩
  · exact hg
  cases hloaded : s.loaded with
  | false =>
    rcases allows_unloaded hloaded hallows with rfl | ⟨db, rfl⟩
    · cases hreact
      exact guarded_viewDidLoad hg hloaded hrun
    · cases hreact
      cases hrun
      refine ⟨hg.user, fun h => ?_, hg.manager, hg.covered⟩
      simp only [App.changed, hg.listener h, Option.map_none]
  | true =>
    obtain ⟨hstay, hout⟩ := react_spec hreact
    have htrue : t.loaded = false → False := by simp [hstay hloaded]
    refine ⟨fun hl => (htrue hl).elim, fun hl => (htrue hl).elim,
      fun _ => App.run_manager hrun (hg.manager hloaded), fun _ hnone => ?_⟩
    have hgone : ¬ app.currentUser.isSome := by
      rw [show app.currentUser = none from hnone]
      simp
    rcases hout with hes | ⟨-, hmodal⟩
    · cases huser : s.app.currentUser with
      | some email => exact absurd (App.run_user hrun hes (by rw [huser]; rfl)) hgone
      | none =>
        obtain ⟨registering, hmodal⟩ := hg.covered hloaded huser
        cases react_behindLogin hmodal hloaded hallows hreact with
        | stays registering' hmodal' => exact ⟨registering', hmodal'⟩
        | signsIn he hes' => exact absurd (App.run_signsIn hrun he hes') hgone
    · exact ⟨false, hmodal⟩

/-! ## The unwraps -/

/-- While the session is guarded, an account is signed in at every unwrap. -/
theorem unwraps_isSome (hg : Guarded s) {v : Option String} (hv : v ∈ s.unwraps count e) :
    v.isSome := by
  unfold unwraps at hv
  split at hv
  · rename_i hallows
    split at hv
    · rename_i t es hreact
      cases huser : s.app.currentUser with
      | some email =>
        rcases (react_spec hreact).2 with hes | ⟨rfl, -⟩
        · exact App.unwrapsAll_isSome (by rw [huser]; rfl) hes hv
        · cases hv
      | none =>
        have hloaded : s.loaded = true := by
          cases hl : s.loaded with
          | true => rfl
          | false => have := hg.user hl; rw [huser] at this; cases this
        obtain ⟨registering, hmodal⟩ := hg.covered hloaded huser
        cases react_behindLogin hmodal hloaded hallows hreact with
        | stays _ _ hes =>
          rw [App.unwrapsAll_eq_nil (hg.manager hloaded) hes] at hv
          cases hv
        | signsIn he hes => exact App.unwrapsAll_signsIn (hg.manager hloaded) he hes hv
    · cases hv
  · cases hv

/-- **The unwraps are safe exactly after a launch with a session.** In every run of such a process
every forced unwrap of the session finds an account; without a session the first view unwraps
`nil`. -/
theorem unwraps_isSome_iff (count : String → Nat) (user : Option String) (store : Database) :
    (∀ es s, (launch user store).run count es = some s →
      ∀ e, ∀ v ∈ s.unwraps count e, v.isSome) ↔ user.isSome := by
  constructor
  · intro h
    exact h [] _ rfl .viewDidLoad user (.head _)
  · intro huser es s hrun e v hv
    obtain ⟨email, rfl⟩ := Option.isSome_iff_exists.1 huser
    have hg : Guarded s := Machine.run_keeps hrun (guarded_launch email store)
      fun _ _ _ _ hg hstep => guarded_step hg hstep
    exact unwraps_isSome hg hv

/-- Without a session the process ends when the first view loads. -/
theorem launch_unwraps_nil :
    ¬ ∀ (count : String → Nat) user store es s, (launch user store).run count es = some s →
      ∀ e, ∀ v ∈ s.unwraps count e, v.isSome := by
  intro h
  have := h String.length none .empty [] _ rfl .viewDidLoad none (.head _)
  cases this

end Screens

end IChat
