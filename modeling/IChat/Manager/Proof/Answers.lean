import IChat.Manager.Callbacks
import IChat.Manager.Proof.Spec

/-!
# Every request is answered once

A call is answered exactly once, and reports what it wrote, unless one of its reads is cancelled (no
cancel block is given to `observeSingleEvent`) or a path is illegal (`answered_once_iff`).
-/

namespace IChat

open Async Firebase SortedMap

/-! ## The callbacks are the clients -/

namespace Callbacks

theorem atChild_congr {ρ : Type} (s : String) {k k' : Path → Call ρ} (h : ∀ p, k p = k' p) :
    IChat.atChild s k = IChat.atChild s k' := by
  rw [funext h]

theorem read_congr {ρ : Type} (p : Path) {k k' : Value → Call ρ} (h : ∀ v, k v = k' v) :
    Prog.read p k = Prog.read p k' := by
  rw [funext h]

theorem userExists_prog (email : String) :
    (userExists email).prog = DatabaseManager.userExists email := by
  rw [userExists, prog_atChild]
  refine atChild_congr _ fun node => read_congr node fun value => ?_
  dsimp only
  cases value.asString <;> rfl

theorem insertUser_prog (user : ChatAppUser) :
    (insertUser user).prog = DatabaseManager.insertUser user := by
  rw [insertUser, prog_atChild]
  refine atChild_congr _ fun node => ?_
  rw [prog_setValue, prog_atChild]
  refine congrArg _ (atChild_congr _ fun users => read_congr users fun value => ?_)
  dsimp only
  cases value.asStringDictArray <;> exact prog_setValue ..

theorem getallUser_prog : getallUser.prog = DatabaseManager.getallUser := by
  rw [getallUser, prog_atChild]
  refine atChild_congr _ fun users => read_congr users fun value => ?_
  dsimp only
  cases value.asStringDictArray <;> rfl

theorem finishCreateConversation_prog (req : ConversationRequest) :
    (finishCreateConversation req).prog = req.manager.finishCreateConversation req.dateFormatter
      req.otherUserName req.conversationKey req.firstMessage := by
  rw [finishCreateConversation, prog_atChild, DatabaseManager.finishCreateConversation]
  exact atChild_congr _ fun conversation => prog_setValue ..

theorem createNewConversation_prog (req : ConversationRequest) :
    (createNewConversation req).prog = req.call := by
  have hwrite : ∀ (refrence : Path) (userNode : List (String × Value)),
      (setValue refrence (.dict userNode) (finishCreateConversation req)).prog =
        IChat.setValue refrence (.dict userNode) (req.manager.finishCreateConversation
          req.dateFormatter req.otherUserName req.conversationKey req.firstMessage) := by
    intro refrence userNode
    rw [prog_setValue, finishCreateConversation_prog]
  unfold ConversationRequest.call DatabaseManager.createNewConversation
  rw [createNewConversation, prog_atChild]
  refine atChild_congr _ fun refrence => read_congr refrence fun value => ?_
  dsimp only
  cases value.asDict with
  | none => rfl
  | some userNode =>
    dsimp only
    cases (find "conversations" userNode).bind Value.asDictArray <;>
    · dsimp only
      rw [hwrite]
      rfl

end Callbacks

/-! ## The replies -/

/-- The `i`-th operation succeeds. -/
def okAt (replies : List (Reply Value)) (i : Nat) : Prop := ∃ reply ∈ replies[i]?, reply.ok = true

/-- The first operation, a read, delivers a dictionary. -/
def dictFirst (replies : List (Reply Value)) : Prop :=
  ∃ reply ∈ replies[0]?, reply.value.asDict.isSome

@[simp] theorem okAt_zero (reply : Reply Value) (replies : List (Reply Value)) :
    okAt (reply :: replies) 0 ↔ reply.ok = true := by
  simp [okAt]

@[simp] theorem okAt_succ (reply : Reply Value) (replies : List (Reply Value)) (i : Nat) :
    okAt (reply :: replies) (i + 1) ↔ okAt replies i := by
  simp [okAt]

@[simp] theorem dictFirst_cons (reply : Reply Value) (replies : List (Reply Value)) :
    dictFirst (reply :: replies) ↔ reply.value.asDict.isSome := by
  simp [dictFirst]

/-! ## Rules -/

/-- The operation answers once exactly if `Q`, and it reports `true` exactly if it wrote `due`. -/
structure Answered (t : Trace Path Bool) (Q : Prop) (due : List (Option Path)) : Prop where
  once : t.answers.length = 1 ↔ Q
  truthful : true ∈ t.answers ↔ t.written.map some = due

theorem Answered.of_iff {t : Trace Path Bool} {Q Q' : Prop} {due : List (Option Path)}
    (h : Answered t Q due) (hQ : Q' ↔ Q) : Answered t Q' due :=
  ⟨by rw [hQ, h.once], h.truthful⟩

/-- Nothing is answered and nothing is written. -/
theorem answered_silent {due : List (Option Path)} (hdue : due ≠ []) :
    Answered ⟨[], [], false⟩ False due where
  once := by simp
  truthful := by simpa using hdue.symm

/-- A failure is reported, and nothing is written. -/
theorem answered_failure {due : List (Option Path)} (hdue : due ≠ []) :
    Answered ⟨[false], [], false⟩ True due where
  once := by simp
  truthful := by simpa using hdue.symm

namespace Callbacks

variable {replies : List (Reply Value)} {Q : Prop} {due : List (Option Path)}

theorem answered_atChild {s : String} {k : Path → Callbacks Bool} (hdue : due ≠ [])
    (hdone : ((atChild s k).run replies).pending = false)
    (h : ∀ p, child s = some p → ((k p).run replies).pending = false →
      Answered ((k p).run replies) Q due) :
    Answered ((atChild s k).run replies) ((child s).isSome ∧ Q) due := by
  unfold atChild at hdone ⊢
  cases hs : child s with
  | none => exact (answered_silent hdue).of_iff (by simp)
  | some p =>
    rw [hs] at hdone
    exact (h p hs hdone).of_iff (by simp)

theorem answered_read {p : Path} {k : Value → Callbacks Bool} (hdue : due ≠ [])
    (hdone : (Body.run (.read p k) replies).pending = false)
    (h : ∀ reply rest, replies = reply :: rest → ((k reply.value).run rest).pending = false →
      Answered ((k reply.value).run rest) Q due) :
    Answered (Body.run (.read p k) replies) (okAt replies 0 ∧ Q) due := by
  cases replies with
  | nil => cases hdone
  | cons reply rest =>
    simp only [Body.run, okAt_zero] at hdone ⊢
    cases hok : reply.ok with
    | false => exact (answered_silent hdue).of_iff (by simp)
    | true =>
      rw [hok, if_pos rfl] at hdone
      exact (h reply rest rfl hdone).of_iff (by simp)

/-- The next operation comes after a write that succeeded. -/
theorem answered_setValue {p : Path} {v : Value} {k : Callbacks Bool}
    (hdone : ((setValue p v k).run replies).pending = false)
    (h : ∀ reply rest, replies = reply :: rest → (k.run rest).pending = false →
      Answered (k.run rest) Q due) :
    Answered ((setValue p v k).run replies) (okAt replies 0 → Q) (some p :: due) := by
  cases replies with
  | nil => cases hdone
  | cons reply rest =>
    simp only [setValue, Body.run, okAt_zero] at hdone ⊢
    cases hok : reply.ok with
    | false => exact (answered_failure (by simp)).of_iff (by simp)
    | true =>
      rw [hok] at hdone
      obtain ⟨honce, htruthful⟩ := h reply rest rfl hdone
      refine ⟨?_, ?_⟩
      · simpa using honce
      · simpa using htruthful

/-- The last write of an operation. -/
theorem answered_setValue_complete {p : Path} {v : Value}
    (hdone : ((setValue p v (.complete true .done)).run replies).pending = false) :
    Answered ((setValue p v (.complete true .done)).run replies) True [some p] := by
  have hlast : ∀ rest : List (Reply Value),
      Answered (Body.run (.complete true .done : Callbacks Bool) rest) True [] := fun rest =>
    ⟨by simp [Body.run], by simp [Body.run]⟩
  exact (answered_setValue hdone fun _ rest _ _ => hlast rest).of_iff (by simp)

/-! ## The operations -/

/-- An operation that reads once and answers whatever is delivered. -/
theorem answers_of_read {ρ : Type} {s : String} {k : Value → Callbacks ρ}
    (hk : ∀ value rest, ((k value).run rest).answers.length = 1)
    (hdone : ((atChild s fun node => .read node k).run replies).pending = false) :
    ((atChild s fun node => .read node k).run replies).answers.length = 1 ↔
      (child s).isSome ∧ okAt replies 0 := by
  unfold atChild at hdone ⊢
  cases hs : child s with
  | none => simp [Body.run]
  | some node =>
    rw [hs] at hdone
    cases replies with
    | nil => cases hdone
    | cons reply rest =>
      cases hok : reply.ok with
      | false => simp [Body.run, hok]
      | true => simp [Body.run, hok, hk]

theorem userExists_answers {email : String}
    (hdone : ((userExists email).run replies).pending = false) :
    ((userExists email).run replies).answers.length = 1 ↔
      (child (safeEmail email)).isSome ∧ okAt replies 0 := by
  refine answers_of_read (fun value rest => ?_) hdone
  cases value.asString <;> rfl

theorem getallUser_answers (hdone : (getallUser.run replies).pending = false) :
    (getallUser.run replies).answers.length = 1 ↔ okAt replies 0 := by
  have honce : (getallUser.run replies).answers.length = 1 ↔
      (child "users").isSome ∧ okAt replies 0 := by
    refine answers_of_read (fun value rest => ?_) hdone
    cases value.asStringDictArray <;> rfl
  rw [honce, child_users]
  exact and_iff_right rfl

/-- A registration is answered unless the directory cannot be read, and truthfully. -/
theorem insertUser_answers {user : ChatAppUser}
    (hdone : ((insertUser user).run replies).pending = false) :
    Answered ((insertUser user).run replies)
      ((child user.safeEmail).isSome ∧ (okAt replies 0 → okAt replies 1))
      [child user.safeEmail, child "users"] := by
  refine answered_atChild (by simp) hdone fun node hnode hdone => ?_
  rw [hnode]
  refine answered_setValue hdone fun reply rest hreplies hdone => ?_
  rw [hreplies, okAt_succ]
  refine (answered_atChild (Q := okAt rest 0 ∧ True) (by simp) hdone
    fun users husers hdone => ?_).of_iff (by simp [child_users])
  rw [husers]
  refine answered_read (by simp) hdone fun reply rest _ hdone => ?_
  -- both branches end with a write of the directory
  revert hdone
  cases reply.value.asStringDictArray <;> exact answered_setValue_complete

theorem finishCreateConversation_answers {req : ConversationRequest}
    (hdone : ((finishCreateConversation req).run replies).pending = false) :
    Answered ((finishCreateConversation req).run replies) (child req.conversationKey).isSome
      [child req.conversationKey] := by
  refine (answered_atChild (Q := True) (by simp) hdone
    fun conversation hconversation hdone => ?_).of_iff (by simp)
  rw [hconversation]
  exact answered_setValue_complete hdone

/-- A new conversation is answered unless the user's node cannot be read, or the conversation's path
is illegal, and truthfully. -/
theorem createNewConversation_answers {req : ConversationRequest}
    (hdone : ((createNewConversation req).run replies).pending = false) :
    Answered ((createNewConversation req).run replies)
      ((child req.userKey).isSome ∧ okAt replies 0 ∧
        (dictFirst replies → okAt replies 1 → (child req.conversationKey).isSome))
      [child req.userKey, child req.conversationKey] := by
  refine answered_atChild (by simp) hdone fun refrence hrefrence hdone => ?_
  rw [hrefrence]
  refine answered_read (by simp) hdone fun reply rest hreplies hdone => ?_
  rw [hreplies, okAt_succ, dictFirst_cons]
  have hwrite : ∀ userNode : List (String × Value),
      ((setValue refrence (.dict userNode) (finishCreateConversation req)).run rest).pending =
        false →
      Answered ((setValue refrence (.dict userNode) (finishCreateConversation req)).run rest)
        (okAt rest 0 → (child req.conversationKey).isSome)
        [some refrence, child req.conversationKey] := fun userNode hdone =>
    answered_setValue hdone fun _ _ _ hdone => finishCreateConversation_answers hdone
  revert hdone
  cases reply.value.asDict with
  | none =>
    intro _
    exact (answered_failure (by simp)).of_iff (by simp)
  | some userNode =>
    dsimp only
    -- the entry is appended to the list, or begins one
    cases (find "conversations" userNode).bind Value.asDictArray <;>
    · intro hdone
      exact (hwrite _ hdone).of_iff (by simp)

end Callbacks

namespace SingleCall

/-- No read that the call issues is cancelled, and its path strings are legal. -/
def Served (replies : List (Reply Value)) : SingleCall → Prop
  | .userExists email => (child (safeEmail email)).isSome ∧ okAt replies 0
  | .insertUser user => (child user.safeEmail).isSome ∧ (okAt replies 0 → okAt replies 1)
  | .getallUser => okAt replies 0
  | .createNewConversation req => (child req.userKey).isSome ∧ okAt replies 0 ∧
    (dictFirst replies → okAt replies 1 → (child req.conversationKey).isSome)

/-- The call reports `true` exactly if it wrote all it had to write. -/
def Truthful (op : SingleCall) (t : Trace Path CallAnswer) : Prop :=
  ∀ due ∈ op.due, .inl true ∈ t.answers ↔ t.written.map some = due

theorem mem_map_inl {answers : List Bool} :
    (.inl true : CallAnswer) ∈ answers.map .inl ↔ true ∈ answers := by
  simp

/-- **A call is answered exactly once, and truthfully, exactly if none of its reads is cancelled and
its paths are legal**: for every call and every reply to each of its operations, once none is
pending. -/
theorem answered_once_iff (op : SingleCall) {replies : List (Reply Value)}
    (hdone : (op.run replies).pending = false) :
    (op.run replies).answers.length = 1 ∧ op.Truthful (op.run replies) ↔ op.Served replies := by
  unfold run Truthful at *
  cases op with
  | userExists email =>
    simp only [body, Body.run_map, List.length_map, due] at hdone ⊢
    simpa [Served] using Callbacks.userExists_answers hdone
  | insertUser user =>
    simp only [body, Body.run_map, List.length_map, due] at hdone ⊢
    obtain ⟨hlength, htrue⟩ := Callbacks.insertUser_answers hdone
    simpa only [Served, Option.mem_some_iff, forall_eq', mem_map_inl, htrue, and_true] using hlength
  | getallUser =>
    simp only [body, Body.run_map, List.length_map, due] at hdone ⊢
    simpa [Served] using Callbacks.getallUser_answers hdone
  | createNewConversation req =>
    simp only [body, Body.run_map, List.length_map, due] at hdone ⊢
    obtain ⟨hlength, htrue⟩ := Callbacks.createNewConversation_answers hdone
    simpa only [Served, Option.mem_some_iff, forall_eq', mem_map_inl, htrue, and_true] using hlength

/-- Ada registers. -/
def adaRegisters : SingleCall := .insertUser ⟨"Ada", "Said", "ada@mail.com"⟩

/-- All three operations succeed; nothing is stored in the directory. -/
theorem answered_once_registered :
    (adaRegisters.run [⟨true, .null⟩, ⟨true, .null⟩, ⟨true, .null⟩]).answers.length = 1 ∧
        adaRegisters.Truthful (adaRegisters.run [⟨true, .null⟩, ⟨true, .null⟩, ⟨true, .null⟩]) ↔
      adaRegisters.Served [⟨true, .null⟩, ⟨true, .null⟩, ⟨true, .null⟩] :=
  answered_once_iff adaRegisters (by decide +kernel)

/-- The node is written and the read of the directory is cancelled: the call is never answered. -/
theorem registration_unanswered :
    (adaRegisters.run [⟨true, .null⟩, ⟨false, .null⟩]).pending = false ∧
      (adaRegisters.run [⟨true, .null⟩, ⟨false, .null⟩]).answers.length = 0 := by
  decide +kernel

end SingleCall

end IChat
