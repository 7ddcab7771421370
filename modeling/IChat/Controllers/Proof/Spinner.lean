import IChat.Controllers.Proof.Launch
import IChat.Controllers.Proof.Search
import IChat.Controllers.Spinner

/-!
# Blocked screens

The spinners of the registration form and of the search are dismissed by a success only. After a
failure that leaves no request pending the screen is blocked, unless a success came before
(`spinner_dismissed_iff`).
-/

namespace IChat

open Firebase

/-! ## The search -/

namespace NewConversationViewController

variable {u : Unicode} {s s' : NewConversationViewController}

/-- With no fetch pending the spinner is not showing. -/
def NotBlocked (s : NewConversationViewController) : Prop := s.fetches = [] → s.spinner = false

/-- If the last pending fetch fails, an earlier one has succeeded. -/
def FailsAfterSuccess (s : NewConversationViewController) : SearchEvent → Prop
  | .getallUser i (.error _) => s.fetches[i]?.isSome → s.fetches.length = 1 → s.hasFetched = true
  | _ => True

/-- The spinner of a pending fetch is dismissed by the first success. -/
structure SpinnerInv (s : NewConversationViewController) : Prop where
  fetched : s.hasFetched = true → s.spinner = false
  pending : s.hasFetched = false → s.fetches ≠ [] → s.spinner = true

theorem SpinnerInv.step (h : SpinnerInv s) {e : SearchEvent}
    (hs' : NewConversationViewController.step u s e = some s') : SpinnerInv s' := by
  cases change_of_step hs' with
  | ignored => exact h
  | cell | selected => exact ⟨h.fetched, h.pending⟩
  | filtered hf =>
    refine ⟨fun _ => filterUser_spinner (by exact hf) _, fun hnot => ?_⟩
    rw [filterUser_hasFetched] at hnot
    exact absurd hf (Bool.eq_false_iff.1 hnot)
  | fetching hf => exact ⟨fun hf' => absurd hf' (Bool.eq_false_iff.1 hf), fun _ _ => rfl⟩
  | fetched hi =>
    refine ⟨fun _ => filterUser_spinner rfl _, fun hnot => ?_⟩
    rw [filterUser_hasFetched] at hnot
    cases hnot
  | failed hi =>
    exact ⟨h.fetched, fun hf _ => h.pending hf (List.ne_nil_of_mem (List.mem_of_getElem? hi))⟩

/-- **Step lemma**: exactly a failure of the last fetch without a success before blocks the
screen. -/
theorem failsAfterSuccess_iff (h : SpinnerInv s) (hnot : NotBlocked s) (e : SearchEvent) :
    FailsAfterSuccess s e ↔
      ∀ s', NewConversationViewController.step u s e = some s' → NotBlocked s' := by
  constructor
  · intro hC s' hs'
    cases change_of_step hs' with
    | ignored | cell | selected => exact hnot
    | filtered hf => exact fun _ => filterUser_spinner (by exact hf) _
    | fetching => exact fun hnil => absurd hnil (by simp)
    | fetched hi => exact fun _ => filterUser_spinner rfl _
    | @failed i query error hi =>
      intro hnil
      have hsome : s.fetches[i]?.isSome := by rw [hi]; rfl
      exact h.fetched (hC hsome ((eraseIdx_eq_nil hsome).1 hnil))
  · intro hall
    unfold FailsAfterSuccess
    split
    · rename_i i error
      intro hsome hlen
      by_contra hf
      obtain ⟨query, hi⟩ := Option.isSome_iff_exists.1 hsome
      have hshown := h.pending (by simpa using hf) (List.ne_nil_of_mem (List.mem_of_getElem? hi))
      have hfails := congrArg some (getallUser_error (u := u) hi error)
      have hhidden := hall _ hfails ((eraseIdx_eq_nil hsome).2 hlen)
      exact absurd (hshown.symm.trans hhidden) (by decide)
    · trivial

/-- The search screen is never blocked exactly if no run of failures starts it. -/
theorem search_notBlocked_iff (u : Unicode) (es : List SearchEvent) :
    Machine.Always (step u) NotBlocked opened es ↔
      Machine.Meets (step u) FailsAfterSuccess opened es := by
  refine Machine.always_iff_meets (I := SpinnerInv) ⟨fun _ => rfl, fun _ hne => absurd rfl hne⟩
    (fun _ => rfl) (fun e _ s s' hs hs' => hs.step hs')
    fun e _ s hs hP => failsAfterSuccess_iff hs hP e

end NewConversationViewController

/-! ## The registration form -/

namespace RegisterViewController

variable {count : String → Nat} {s s' : RegisterViewController}

theorem registerBtnTapped_signUps (h : s.registerBtnTapped count = some s') :
    s'.signUps = if s.form.passes count then s.signUps ++ [s.form] else s.signUps := by
  rcases registerBtnTapped_eq_some h with ⟨hstop, alerts, rfl⟩ | ⟨hstop, hask⟩
  · rw [if_neg fun hp => Form.passes_iff.1 hp hstop]
  · obtain ⟨app, -, rfl⟩ := ask_eq_some hask
    rw [if_pos (Form.passes_iff.2 hstop)]

theorem createUser_signUps {i : Nat} {success : Bool} (h : s.createUser i success = some s') :
    s'.signUps = s.signUps.eraseIdx i := by
  unfold createUser at h
  cases hi : s.signUps[i]? with
  | none =>
    rw [hi] at h
    cases h
    exact (List.eraseIdx_of_length_le (List.getElem?_eq_none_iff.1 hi)).symm
  | some pressed =>
    rw [hi] at h
    cases success with
    | false => cases h; rfl
    | true =>
      obtain ⟨app, -, h⟩ := Option.bind_eq_some_iff.1 h
      obtain ⟨p, -, h⟩ := Option.bind_eq_some_iff.1 h
      cases h
      rfl

theorem createUser_failed (i : Nat) : ∃ s', s.createUser i false = some s' := by
  unfold createUser
  split
  · exact ⟨s, rfl⟩
  · exact ⟨_, rfl⟩

theorem userExists_signUps (i : Nat) : (s.userExists i).signUps = s.signUps := by
  obtain ⟨checks, alerts, heq⟩ := userExists_eq (s := s) i
  rw [heq]

end RegisterViewController

namespace RegisterSpinner

variable {count : String → Nat} {s s' : RegisterSpinner}

/-- What an event does to the spinner. -/
inductive Change (s : RegisterSpinner) : SpinnerEvent → RegisterSpinner → Prop
  | quiet {e : SpinnerEvent} {screen : RegisterViewController} :
      screen.signUps = s.screen.signUps → Change s e { s with screen := screen }
  | shown {e : SpinnerEvent} {screen : RegisterViewController} :
      screen.signUps = s.screen.signUps ++ [s.screen.form] →
      Change s e
        { s with screen := screen, spinner := true, answered := decide (0 < s.dismissals) }
  | failed {i : Nat} {screen : RegisterViewController} :
      s.screen.signUps[i]?.isSome → screen.signUps = s.screen.signUps.eraseIdx i →
      Change s (.handler (.createUser i false)) { s with screen := screen }
  | succeeded {i : Nat} {screen : RegisterViewController} :
      s.screen.signUps[i]?.isSome →
      Change s (.handler (.createUser i true))
        { s with screen := screen, dismissals := s.dismissals + 1, answered := true }
  | dismissed : 0 < s.dismissals →
      Change s .dismiss { s with spinner := false, dismissals := s.dismissals - 1 }

theorem change_registerBtnTapped (h : s.registerBtnTapped count = some s') :
    Change s (.handler .registerBtnTapped) s' := by
  obtain ⟨screen, hscreen, h⟩ := Option.bind_eq_some_iff.1 h
  have hsignUps := RegisterViewController.registerBtnTapped_signUps hscreen
  split at h
  · rename_i hpasses
    cases h
    rw [if_pos hpasses] at hsignUps
    exact .shown hsignUps
  · rename_i hpasses
    cases h
    rw [if_neg hpasses] at hsignUps
    exact .quiet hsignUps

theorem change_createUser {i : Nat} {success : Bool} (h : s.createUser i success = some s') :
    Change s (.handler (.createUser i success)) s' := by
  obtain ⟨screen, hscreen, h⟩ := Option.bind_eq_some_iff.1 h
  have hsignUps := RegisterViewController.createUser_signUps hscreen
  cases hi : s.screen.signUps[i]? with
  | none =>
    rw [hi, Option.isSome_none, Bool.and_false] at h
    cases h
    rw [List.eraseIdx_of_length_le (List.getElem?_eq_none_iff.1 hi)] at hsignUps
    exact .quiet hsignUps
  | some pressed =>
    have hsome : s.screen.signUps[i]?.isSome := by rw [hi]; rfl
    cases success with
    | true =>
      rw [hi] at h
      cases h
      exact .succeeded hsome
    | false =>
      cases h
      exact .failed hsome hsignUps

theorem change_of_step {e : SpinnerEvent} (h : s.step count e = some s') : Change s e s' := by
  cases e with
  | dismiss =>
    cases h
    unfold dismiss
    split
    · exact .quiet rfl
    · rename_i hne
      exact .dismissed (Nat.pos_of_ne_zero hne)
  | handler e =>
    cases e with
    | registerBtnTapped => exact change_registerBtnTapped h
    | createUser i success => exact change_createUser h
    | edit form => cases h; exact .quiet rfl
    | changed db => cases h; exact .quiet rfl
    | userExists i => cases h; exact .quiet (RegisterViewController.userExists_signUps i)

/-- With no `createUser` pending, and no block queued, the spinner is not showing. -/
def NotBlocked (s : RegisterSpinner) : Prop :=
  s.screen.signUps = [] → s.dismissals = 0 → s.spinner = false

/-- If the last pending `createUser` fails, another one has completed with a result. -/
def FailsAfterSuccess (s : RegisterSpinner) : SpinnerEvent → Prop
  | .handler (.createUser i false) =>
    s.screen.signUps[i]?.isSome → s.screen.signUps.length = 1 → s.answered = true
  | _ => True

/-- The spinner of a pending `createUser` is dismissed after a result only. -/
structure SpinnerInv (s : RegisterSpinner) : Prop where
  answered : s.answered = true → s.dismissals = 0 → s.spinner = false
  queued : s.answered = false → s.dismissals = 0
  pending : s.answered = false → s.screen.signUps ≠ [] → s.spinner = true

theorem SpinnerInv.step (h : SpinnerInv s) {e : SpinnerEvent} (hs' : s.step count e = some s') :
    SpinnerInv s' := by
  cases change_of_step hs' with
  | quiet hsignUps =>
    exact ⟨h.answered, h.queued, fun hnot hne => h.pending hnot (by rwa [← hsignUps])⟩
  | shown hsignUps =>
    refine ⟨fun hyes hzero => ?_, fun hnot => ?_, fun _ _ => rfl⟩
    · have hpos : 0 < s.dismissals := of_decide_eq_true hyes
      exact absurd hzero (Nat.ne_of_gt hpos)
    · have hzero : ¬ 0 < s.dismissals := of_decide_eq_false hnot
      exact Nat.eq_zero_of_not_pos hzero
  | failed hi hsignUps =>
    refine ⟨h.answered, h.queued, fun hnot _ => h.pending hnot fun hnil => ?_⟩
    rw [hnil] at hi
    cases hi
  | succeeded hi =>
    refine ⟨fun _ hzero => ?_, fun hnot => ?_, fun hnot _ => ?_⟩
    · cases hzero
    · cases hnot
    · cases hnot
  | dismissed hpos =>
    have hyes : ¬ s.answered = false := fun hnot => Nat.ne_of_gt hpos (h.queued hnot)
    exact ⟨fun _ _ => rfl, fun hnot => absurd hnot hyes, fun hnot _ => absurd hnot hyes⟩

/-- **Step lemma**: exactly a failure of the last `createUser` without a result before blocks the
screen. -/
theorem failsAfterSuccess_iff (h : SpinnerInv s) (hnot : NotBlocked s) (e : SpinnerEvent) :
    FailsAfterSuccess s e ↔ ∀ s', s.step count e = some s' → NotBlocked s' := by
  constructor
  · intro hC s' hs' hnil hzero
    cases change_of_step hs' with
    | quiet hsignUps => exact hnot (hsignUps.symm.trans hnil) hzero
    | shown hsignUps => exact absurd (hsignUps.symm.trans hnil) (by simp)
    | failed hi hsignUps =>
      exact h.answered (hC hi ((eraseIdx_eq_nil hi).1 (hsignUps.symm.trans hnil))) hzero
    | succeeded hi => cases hzero
    | dismissed hpos => rfl
  · intro hall
    unfold FailsAfterSuccess
    split
    · rename_i i
      intro hi hlen
      by_contra hanswered
      have hunanswered : s.answered = false := by simpa using hanswered
      obtain ⟨screen, hscreen⟩ := s.screen.createUser_failed i
      have hsignUps := RegisterViewController.createUser_signUps hscreen
      have hhidden : s.spinner = false := by
        refine hall { s with screen := screen } ?_ ?_ (h.queued hunanswered)
        · simp [step, createUser, hscreen]
        · exact hsignUps.trans ((eraseIdx_eq_nil hi).2 hlen)
      have hshown := h.pending hunanswered fun hnil => by rw [hnil] at hi; cases hi
      rw [hshown] at hhidden
      cases hhidden
    · trivial

/-- The form is never blocked exactly if no `createUser` fails without a result before. -/
theorem register_notBlocked_iff (count : String → Nat) (app : App) (es : List SpinnerEvent) :
    Machine.Always (step count) NotBlocked (opened app) es ↔
      Machine.Meets (step count) FailsAfterSuccess (opened app) es := by
  refine Machine.always_iff_meets (I := SpinnerInv) ⟨fun _ _ => rfl, fun _ => rfl,
    fun _ hne => absurd rfl hne⟩ (fun _ _ => rfl) (fun e _ s s' hs hs' => hs.step hs')
    fun e _ s hs hP => failsAfterSuccess_iff hs hP e

end RegisterSpinner

/-! ## Both screens -/

/-- **No screen is ever blocked exactly if, whenever the last pending request fails, one before it
succeeded**: on the registration form, another `createUser` since the spinner was last shown; in the
search, another fetch. For all runs, all texts and all orders of the completions. -/
theorem spinner_dismissed_iff (u : Unicode) (count : String → Nat) (app : App)
    (es : List SpinnerEvent) (fs : List SearchEvent) :
    (Machine.Always (RegisterSpinner.step count) RegisterSpinner.NotBlocked (.opened app) es ∧
      Machine.Always (NewConversationViewController.step u)
        NewConversationViewController.NotBlocked .opened fs) ↔
    (Machine.Meets (RegisterSpinner.step count) RegisterSpinner.FailsAfterSuccess (.opened app) es ∧
      Machine.Meets (NewConversationViewController.step u)
        NewConversationViewController.FailsAfterSuccess .opened fs) :=
  and_congr (RegisterSpinner.register_notBlocked_iff count app es)
    (NewConversationViewController.search_notBlocked_iff u fs)

/-- The only `createUser` fails, and the only fetch fails: both spinners stay. -/
theorem spinner_stays :
    (∃ s, Machine.run (RegisterSpinner.step fun password => password.toList.length)
        (.opened RegisterViewController.adaSignedOut)
        [.handler (.edit RegisterViewController.zainForm), .handler .registerBtnTapped,
          .handler (.createUser 0 false)] = some s ∧
      s.screen.signUps = [] ∧ s.dismissals = 0 ∧ s.spinner = true) ∧
    ∃ s, NewConversationViewController.run asciiUnicode .opened
        [.searchBarSearchButtonClicked "ada", .getallUser 0 (.error .failedToFetch)] = some s ∧
      s.fetches = [] ∧ s.spinner = true :=
  ⟨⟨_, rfl, rfl, rfl, rfl⟩, ⟨_, rfl, rfl, rfl⟩⟩

end IChat
