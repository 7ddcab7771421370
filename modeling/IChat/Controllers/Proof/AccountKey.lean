import IChat.Controllers.Pictures
import IChat.Manager.Proof.Decoding
import Mathlib.Data.List.Forall2

/-!
# One account, one key

Registration derives an account's keys from the typed email, everything after it from the email
that `Auth` reports, which is lower-cased. All of them are one key exactly when lower-casing leaves
the typed email as it is (`oneKey_iff`).
-/

namespace IChat

open Firebase SortedMap

/-! ## Lower-casing -/

/-- What a character may become: dots, `@` and dashes stay, and nothing else becomes one of them. -/
def LowersTo (c : Char) (piece : List Char) : Prop :=
  if c ∈ ['.', '@', '-'] then piece = [c]
  else piece ≠ [] ∧ ∀ d ∈ piece, d ∉ ['.', '@', '-']

/-- How `Auth` lower-cases an email: each character becomes some text, which may depend on the
characters around it. -/
structure LowerCasing where
  lower : String → String
  pieces : ∀ s, ∃ ws, (lower s).toList = ws.flatten ∧ List.Forall₂ LowersTo s.toList ws

theorem toLower_cases (c : Char) : c.toLower = c ∨ 'a' ≤ c.toLower := by
  unfold Char.toLower
  split
  · rename_i h
    have hlow : 65 ≤ c.val.toNat := UInt32.le_iff_toNat_le.1 h.1
    have hhigh : c.val.toNat ≤ 90 := UInt32.le_iff_toNat_le.1 h.2
    refine .inr (UInt32.le_iff_toNat_le.2 ?_)
    show 97 ≤ (c.val + 32).toNat
    rw [UInt32.toNat_add, show (32 : UInt32).toNat = 32 from rfl]
    omega
  · exact .inl rfl

theorem lowersTo_toLower (c : Char) : LowersTo c [c.toLower] := by
  unfold LowersTo
  split
  · rename_i hc
    simp only [List.mem_cons, List.not_mem_nil, or_false] at hc
    rcases hc with rfl | rfl | rfl <;> rfl
  · rename_i hc
    refine ⟨List.cons_ne_nil _ _, fun d hd hm => ?_⟩
    obtain rfl := List.mem_singleton.1 hd
    rcases toLower_cases c with h | h
    · rw [h] at hm; exact hc hm
    · simp only [List.mem_cons, List.not_mem_nil, or_false] at hm
      rcases hm with hm | hm | hm <;> rw [hm] at h <;> exact absurd h (by decide)

/-- Lower-casing of the letters `A` to `Z`. -/
def asciiLower : LowerCasing where
  lower s := String.ofList (s.toList.map Char.toLower)
  pieces s := by
    refine ⟨s.toList.map fun c => [c.toLower], ?_, ?_⟩
    · rw [String.toList_ofList, ← List.flatMap_def, ← List.map_eq_flatMap]
    · rw [List.forall₂_map_right_iff, List.forall₂_same]
      exact fun c _ => lowersTo_toLower c

/-- What `safeEmail` does to a character. -/
def safeChar (c : Char) : Char := if c = '.' ∨ c = '@' then '-' else c

theorem LowersTo.ne_nil {c : Char} {w : List Char} (h : LowersTo c w) : w ≠ [] := by
  unfold LowersTo at h
  split at h
  · rw [h]; exact List.cons_ne_nil _ _
  · exact h.1

/-- One character that reads the same when made safe is the same. -/
theorem LowersTo.eq_of_safe {c d : Char} (h : LowersTo c [d]) (hsafe : safeChar d = safeChar c) :
    d = c := by
  unfold LowersTo at h
  split at h
  · exact List.singleton_inj.1 h
  · rename_i hc
    have hd := h.2 d (.head _)
    simp only [List.mem_cons, List.not_mem_nil, or_false, not_or] at hc hd
    simpa only [safeChar, hc.1, hc.2.1, hd.1, hd.2.1, or_self, ↓reduceIte] using hsafe

theorem length_le_of_lowers {cs : List Char} {ws : List (List Char)}
    (h : List.Forall₂ LowersTo cs ws) : cs.length ≤ ws.flatten.length := by
  induction h with
  | nil => exact Nat.le_refl _
  | cons hw _ ih =>
    have hpos := List.length_pos_of_ne_nil hw.ne_nil
    simp only [List.length_cons, List.flatten_cons, List.length_append]
    omega

/-- Texts that agree when made safe are equal, if one is the other lower-cased. -/
theorem flatten_eq_of_safe {cs : List Char} {ws : List (List Char)}
    (h : List.Forall₂ LowersTo cs ws) (hsafe : ws.flatten.map safeChar = cs.map safeChar) :
    ws.flatten = cs := by
  induction h with
  | nil => rfl
  | @cons c w cs ws hw hrest ih =>
    have hlen := congrArg List.length hsafe
    have hle := length_le_of_lowers hrest
    have hpos := List.length_pos_of_ne_nil hw.ne_nil
    simp only [List.length_map, List.flatten_cons, List.length_append, List.length_cons] at hlen
    -- no character can have become longer
    obtain ⟨d, rfl⟩ := List.length_eq_one_iff.1 (show w.length = 1 by omega)
    simp only [List.flatten_cons, List.singleton_append, List.map_cons, List.cons.injEq] at hsafe ⊢
    exact ⟨hw.eq_of_safe hsafe.1, ih hsafe.2⟩

/-- **The reported email has the key of the typed one exactly when they are equal.** -/
theorem safeEmail_lower (auth : LowerCasing) (email : String) :
    safeEmail (auth.lower email) = safeEmail email ↔ auth.lower email = email := by
  refine ⟨fun h => ?_, fun h => by rw [h]⟩
  obtain ⟨ws, hws, hpieces⟩ := auth.pieces email
  have hsafe := congrArg String.toList h
  rw [toList_safeEmail, toList_safeEmail, hws] at hsafe
  rw [← String.toList_inj, hws]
  exact flatten_eq_of_safe hpieces hsafe

/-! ## The keys of an account -/

/-- Everything the application derives for an account that registered as `user` and that `Auth`
reports as `reported` is made from one key. -/
structure OneKey (user : ChatAppUser) (reported key : String) : Prop where
  insertUser : user.safeEmail = key
  directory : find "safeEmail" user.newUser = some key
  createNewConversation : ∀ req : ConversationRequest,
    req.manager.userEmail = reported → req.userKey = key
  getAllConversation : safeEmail reported ++ "/conversations" = key ++ "/conversations"
  upload : uploadPath user.profilePictureFileName = "images/" ++ key ++ "_profile_picture.png"
  header : headerPath reported = "images/" ++ key ++ "_profile_picture.png"
  /-- The cell of a conversation that a peer created with the account's directory entry. -/
  cell : ∃ chat, composeChat user.newUser = some chat ∧
    ∀ send : Send, send.chat = chat → ∃ model,
      Conversation.ofDictionary send.request.entry = some model ∧
        cellPath model = "images/" ++ key ++ "_profile_picture.png"

/-- **An account has one key exactly when `Auth` reports its email as it was typed.** -/
theorem oneKey_iff (auth : LowerCasing) (user : ChatAppUser) :
    (∃ key, OneKey user (auth.lower user.email) key) ↔ auth.lower user.email = user.email := by
  rw [← safeEmail_lower]
  constructor
  · intro h
    obtain ⟨key, h⟩ := h
    have hreported : safeEmail (auth.lower user.email) = key :=
      (String.append_left_inj "/conversations").1 h.getAllConversation
    exact hreported.trans h.insertUser.symm
  · intro h
    refine ⟨user.safeEmail, rfl, rfl, fun req hreq => ?_, ?_, ?_, ?_, ?_⟩
    · rw [ConversationRequest.userKey, hreq, h]; rfl
    · rw [h]; rfl
    · rw [uploadPath, ChatAppUser.profilePictureFileName, String.append_assoc]
    · rw [headerPath, h, String.append_assoc]; rfl
    · refine ⟨_, composeChat_newUser user, fun send hsend => ⟨_, ofDictionary_entry _, ?_⟩⟩
      rw [cellPath]
      simp only [ConversationRequest.conversation, Send.request, hsend]

/-- An account registered with a capital letter. -/
theorem keys_differ :
    ¬ ∃ key, OneKey ⟨"Ada", "Said", "Ada@mail.com"⟩ (asciiLower.lower "Ada@mail.com") key := by
  intro h
  obtain ⟨key, h⟩ := h
  have hinsert := h.insertUser
  have hheader := h.header
  rw [← hinsert] at hheader
  exact absurd hheader (by decide +kernel)

end IChat
