import IChat.Async.Proof.Commute
import IChat.Manager.Proof.Overlap

/-!
# Calls of different users

`createNewConversation` stays at the caller's node and the conversation's node. Calls whose nodes
are apart commute, whatever operations fail. It is not enough that their keys are different: a slash
in an id puts one conversation inside the other (`creations_depend_on_order`).
-/

namespace IChat

open Async Firebase

variable {ι : Type}

/-- The paths of a call. -/
def ConversationRequest.At (req : ConversationRequest) (p : Path) : Prop :=
  child req.userKey = some p ∨ child req.conversationKey = some p

theorem ConversationRequest.call_within (req : ConversationRequest) :
    Within req.At (fun _ => True) req.call :=
  DatabaseManager.createNewConversation_within ..

theorem creations_independent {reqs : ι → ConversationRequest} (db : Database)
    (fates : ι → List Bool)
    (huser : ∀ i j, i ≠ j → KeysApart (reqs i).userKey (reqs j).userKey)
    (hconv : ∀ i j, i ≠ j → KeysApart (reqs i).conversationKey (reqs j).conversationKey)
    (hcross : ∀ i j, i ≠ j → KeysApart (reqs i).userKey (reqs j).conversationKey) :
    Independent (creations db reqs fates) fun i => (reqs i).At := by
  refine ⟨fun i => ?_, fun i j hij p q hp hq => ?_⟩
  · rw [creations_prog]; exact (reqs i).call_within
  · rcases hp with hp | hp <;> rcases hq with hq | hq
    · exact huser i j hij p q hp hq
    · exact hcross i j hij p q hp hq
    · exact (hcross j i (Ne.symm hij) q p hq hp).symm
    · exact hconv i j hij p q hp hq

/-- **Conversations created by different users at nodes apart never interfere**: a run in which
every call reaches its end has the store and the answers of running the calls one after another, in
any order. -/
theorem creations_eq_inOrder [DecidableEq ι] {reqs : ι → ConversationRequest} (db : Database)
    (fates : ι → List Bool)
    (huser : ∀ i j, i ≠ j → KeysApart (reqs i).userKey (reqs j).userKey)
    (hconv : ∀ i j, i ≠ j → KeysApart (reqs i).conversationKey (reqs j).conversationKey)
    (hcross : ∀ i j, i ≠ j → KeysApart (reqs i).userKey (reqs j).conversationKey)
    {sched order : List ι} (hnd : order.Nodup) (hall : ∀ i, i ∈ order)
    (hfin : ∀ i, (((creations db reqs fates).run sched).jobs i).prog.Finished) :
    ((creations db reqs fates).run sched).store =
        ((creations db reqs fates).runInOrder order).store ∧
      ∀ i, (((creations db reqs fates).run sched).jobs i).prog =
        (((creations db reqs fates).runInOrder order).jobs i).prog :=
  Config.run_eq_inOrder (creations_independent db fates huser hconv hcross) hnd hall hfin

/-- A first message of each of the two users to the other. -/
def twoCallers (i : Bool) : ConversationRequest where
  manager := ⟨(twoUsers i).email⟩
  dateFormatter := ⟨toString⟩
  otherUserEmail := (twoUsers !i).safeEmail
  otherUserName := (twoUsers !i).firstName
  firstMessage := ⟨if i then "to-omar" else "to-ada", 0, .text "hello"⟩

/-- A database in which both are registered. -/
def bothRegistered : Database :=
  ((registrations .empty twoUsers fun _ => []).run [true, true, true, false, false, false]).store

theorem twoCallers_apart : ∀ i j, i ≠ j →
    KeysApart (twoCallers i).userKey (twoCallers j).userKey ∧
      KeysApart (twoCallers i).conversationKey (twoCallers j).conversationKey ∧
      KeysApart (twoCallers i).userKey (twoCallers j).conversationKey := by
  have huser : ∀ i, child (twoCallers i).userKey = some [(twoCallers i).userKey] := by
    decide +kernel
  have hconv : ∀ i, child (twoCallers i).conversationKey =
      some [(twoCallers i).conversationKey] := by decide +kernel
  intro i j
  rw [keysApart_iff (huser i) (huser j), keysApart_iff (hconv i) (hconv j),
    keysApart_iff (huser i) (hconv j)]
  revert i j
  decide +kernel

/-- Interleaved calls, where one conversation's write fails. -/
theorem creations_eq_inOrder_two :
    let fates := fun i => if i then [true, true, false] else []
    let c := creations bothRegistered twoCallers fates
    (c.run [true, false, true, false, false, true]).store = (c.runInOrder [false, true]).store ∧
      ∀ i, ((c.run [true, false, true, false, false, true]).jobs i).prog =
        ((c.runInOrder [false, true]).jobs i).prog :=
  creations_eq_inOrder bothRegistered _ (fun i j h => (twoCallers_apart i j h).1)
    (fun i j h => (twoCallers_apart i j h).2.1) (fun i j h => (twoCallers_apart i j h).2.2)
    (by decide) (by decide) fun i =>
      Prog.finished_of_answer (r := !i) (by revert i; decide +kernel)

/-- A first message of each of the two users, where the id of the second lies inside the node of the
first. -/
def nestedCallers (i : Bool) : ConversationRequest :=
  { twoCallers i with firstMessage := ⟨if i then "first" else "first/messages", 0, .text "hello"⟩ }

/-- The callers and the ids are different, and no id is the key of a user's node. All calls complete
with `true`, and the second one replaces the first one's message; the other order does not. -/
theorem creations_depend_on_order :
    let c := creations bothRegistered nestedCallers fun _ => []
    (∀ i j, i ≠ j → (nestedCallers i).userKey ≠ (nestedCallers j).userKey ∧
        (nestedCallers i).conversationKey ≠ (nestedCallers j).conversationKey) ∧
      (∀ i j, (nestedCallers i).conversationKey ≠ (nestedCallers j).userKey) ∧
      (∀ i, ((c.run [true, true, true, false, false, false]).jobs i).prog = .ret true) ∧
      (c.run [true, true, true, false, false, false]).store ≠
        (c.runInOrder [false, true]).store := by
  refine ⟨by decide +kernel, by decide +kernel,
    fun i => Prog.answer_eq_some.1 (by revert i; decide +kernel), fun h => ?_⟩
  have hmessages := congrArg (fun db : Database =>
    ((db.value ["conversation_first"]).field "messages").asDictArray.isSome) h
  revert hmessages
  decide +kernel

end IChat
